import Spiffile.Removal

/-!
# Where provisioning writes

The name is checked as part of an ID, not as part of a path. The check lets
path segments through only, so whatever the root and the trust domain are, an
accepted name leads below `services`, and two of them lead to two directories.
-/

namespace Spiffile

open FileTree

/-! ### What a command touches -/

/-- The command, issued in this state, creates, writes or removes the node. -/
def Cmd.Touches (u : Disk) (q : PathName) : Cmd → Prop
  | .mkdirs p => (u.tree.mkdirs p).2.get q ≠ u.tree.get q
  | .write p _ => u.tree.resolve p = .ok q
  | .chmod p => ∃ n, u.tree.stat p = .ok (q, n)
  | .unlink p => (u.tree.unlink p).2.get q ≠ u.tree.get q
  | .rmdir p => (u.tree.rmdir p).2.get q ≠ u.tree.get q
  | .removeAll p lenient => (u.tree.removeAll p lenient).2.get q ≠ u.tree.get q
  | .present _ => False
  | .read _ => False
  | .generateKey => False

/-- The bundle, the directory of the services if it is missing, or a node below
it. -/
def Inside (root : PathName) (u : Disk) (q : PathName) : Prop :=
  q = clean root ++ [bundleFilename] ∨
    q = clean root ++ [servicesDirname] ∧ u.tree.get q = none ∨
    ∃ rest, rest ≠ [] ∧ q = clean root ++ servicesDirname :: rest

/-- What the command touches is inside. -/
def TouchesInside (root : PathName) (c : Cmd) (u : Disk) : Prop :=
  ∀ q, c.Touches u q → Inside root u q

theorem write_frame {u : Disk} {p q : PathName} (c : Content) (h : u.tree.resolve p ≠ .ok q) :
    (u.tree.write p c).2.get q = u.tree.get q := by
  unfold Volume.write
  split
  · rfl
  · next r hr =>
    split_ifs with hdir
    · rfl
    · have hne : q ≠ r := by
        rintro rfl
        exact h hr
      rw [Volume.get_put (Volume.puttable_of_resolve hr hdir), if_neg hne]

/-- A command changes nothing that it does not touch. -/
theorem Cmd.frame (supply : ℕ → Point) (c : Cmd) (u : Disk) (q : PathName) (h : ¬ c.Touches u q) :
    (Disk.step supply c u).2.tree.get q = u.tree.get q := by
  cases c with
  | present p => rfl
  | read p => rfl
  | generateKey => rfl
  | chmod p => rfl
  | mkdirs p => exact not_not.mp h
  | unlink p => exact not_not.mp h
  | rmdir p => exact not_not.mp h
  | removeAll p lenient => exact not_not.mp h
  | write p content => exact write_frame content h

/-! ### Joining to any root -/

/-- The root as the language joins to it. -/
structure Kit.Rooted {ε τ κ : Type} (kit : Kit ε τ κ) (root base : PathName) : Prop where
  clean : Spiffile.clean base = Spiffile.clean root
  join_root : ∀ parts, (∀ part ∈ parts, PlainPath (splitSlash part)) →
    kit.join root parts = base ++ parts.flatMap splitSlash
  join_below : ∀ rest parts, PlainPath rest → (∀ part ∈ parts, PlainPath (splitSlash part)) →
    kit.join (base ++ rest) parts = base ++ rest ++ parts.flatMap splitSlash

theorem py_rooted (rt : Runtime) (root : PathName) : (Py.kit rt).Rooted root root where
  clean := rfl
  join_root _ h := py_join_plain h
  join_below _ _ _ h := py_join_plain h

theorem clean_clean_append (root rest : PathName) (h : PlainPath rest) :
    clean (clean root ++ rest) = clean root ++ rest := by
  rw [clean_append, clean_clean]
  exact foldl_next_plain rest _ h

theorem go_rooted (rt : Runtime) (root : PathName) : (Go.kit rt).Rooted root (clean root) where
  clean := clean_clean root
  join_root _ h := go_join_eq h
  join_below rest parts hrest h := by
    have hjoin : (Go.kit rt).join (clean root ++ rest) parts = _ := go_join_eq h
    rw [hjoin, clean_clean_append root rest hrest]

theorem ts_rooted (rt : Runtime) (root : PathName) : (Ts.kit rt).Rooted root (clean root) where
  clean := clean_clean root
  join_root _ h := (ts_join_eq h).trans (go_join_eq h)
  join_below rest parts hrest h := by
    have hjoin : (Ts.kit rt).join (clean root ++ rest) parts = _ := (ts_join_eq h).trans (go_join_eq h)
    rw [hjoin, clean_clean_append root rest hrest]

theorem Kit.Rooted.join_bundle {ε τ κ : Type} {kit : Kit ε τ κ} {root base : PathName}
    (h : kit.Rooted root base) : kit.join root [bundleFilename] = base ++ [bundleFilename] := by
  rw [h.join_root _ fun part hp => ?_]
  · rfl
  · rw [List.mem_singleton.mp hp, splitSlash_bundleFilename]
    exact plainPath_singleton plain_bundleFilename

theorem Kit.Rooted.join_service {ε τ κ : Type} {kit : Kit ε τ κ} {root base : PathName}
    (h : kit.Rooted root base) {name : String} (hname : PlainPath (splitSlash name)) :
    kit.join root [servicesDirname, name] = base ++ servicesDirname :: splitSlash name := by
  rw [h.join_root _ fun part hp => ?_]
  · rw [List.flatMap_cons, splitSlash_servicesDirname, List.flatMap_singleton]
    rfl
  · rcases List.mem_cons.mp hp with rfl | hp
    · exact plainPath_singleton plain_servicesDirname
    · rwa [List.mem_singleton.mp hp]

/-- A file in the directory of a service. -/
theorem Kit.Rooted.join_file {ε τ κ : Type} {kit : Kit ε τ κ} {root base : PathName}
    (h : kit.Rooted root base) {name file : String} (hname : PlainPath (splitSlash name))
    (hfile : Volume.Plain file) (hsplit : splitSlash file = [file]) :
    kit.join (base ++ servicesDirname :: splitSlash name) [file] =
      base ++ servicesDirname :: (splitSlash name ++ [file]) := by
  have hdir : PlainPath (servicesDirname :: splitSlash name) :=
    (plainPath_singleton plain_servicesDirname).append hname
  rw [h.join_below _ _ hdir fun p hp => ?_]
  · rw [List.flatMap_singleton, hsplit, List.append_assoc, List.cons_append]
  · rw [List.mem_singleton.mp hp, hsplit]
    exact plainPath_singleton hfile

/-! ### The commands of a call -/

section

variable {root base : PathName} {u : Disk} (h : u.tree.Leads base (clean root))

include h

theorem touches_below {rest q : PathName} (hrest : PlainPath rest)
    (hq : u.tree.resolve (base ++ rest) = .ok q) : q = clean root ++ rest := by
  rw [h.resolve] at hq
  exact Volume.resolve_plain_eq_ok (PlainPath.append h.plain hrest) _ hq

theorem write_inside {rest : PathName} (hrest : PlainPath rest) (hne : rest ≠ []) (c : Content) :
    TouchesInside root (.write (base ++ servicesDirname :: rest) c) u := by
  intro q hq
  refine Or.inr (Or.inr ⟨rest, hne, touches_below h ?_ hq⟩)
  exact (plainPath_singleton plain_servicesDirname).append hrest

theorem chmod_inside {rest : PathName} (hrest : PlainPath rest) (hne : rest ≠ []) :
    TouchesInside root (.chmod (base ++ servicesDirname :: rest)) u := by
  rintro q ⟨n, hn⟩
  refine Or.inr (Or.inr ⟨rest, hne, touches_below h ?_ (Volume.resolve_of_stat hn)⟩)
  exact (plainPath_singleton plain_servicesDirname).append hrest

theorem writeBundle_inside (c : Content) :
    TouchesInside root (.write (base ++ [bundleFilename]) c) u := by
  intro q hq
  exact Or.inl (touches_below h (plainPath_singleton plain_bundleFilename) hq)

/-- The missing directories are at `services` or below. -/
theorem mkdirs_inside {rest : PathName} (hrest : PlainPath rest) :
    TouchesInside root (.mkdirs (base ++ servicesDirname :: rest)) u := by
  intro q hq
  have hplain : PlainPath (servicesDirname :: rest) :=
    (plainPath_singleton plain_servicesDirname).append hrest
  rcases h.mkdirs_grown hplain q with hsame | ⟨hnone, -, hpre⟩
  · exact absurd hsame hq
  have hbelow : clean root <+: q := by
    rcases List.prefix_or_prefix_of_prefix hpre (List.prefix_append (clean root) _) with habove | hbelow
    · obtain ⟨r, hr⟩ := habove
      have hdir := h.dir
      rw [← hr, u.tree.get_none_below hnone] at hdir
      cases hdir
    · exact hbelow
  obtain ⟨r, rfl⟩ := hbelow
  rw [List.prefix_append_right_inj] at hpre
  cases r with
  | nil =>
    rw [List.append_nil, h.dir] at hnone
    cases hnone
  | cons name r =>
    obtain ⟨rfl, -⟩ := List.cons_prefix_cons.mp hpre
    by_cases hr : r = []
    · subst hr
      exact Or.inr (Or.inl ⟨rfl, hnone⟩)
    · exact Or.inr (Or.inr ⟨r, hr, rfl⟩)

theorem leads_write (p : PathName) (c : Content) :
    (u.tree.write p c).2.Leads base (clean root) := by
  refine Volume.Leads.mono h fun q hq => ?_
  by_cases hr : u.tree.resolve p = .ok q
  · have hsame : (u.tree.write p c).2 = u.tree := by
      rw [Volume.write, hr]
      exact congrArg Prod.snd (if_pos ((u.tree.isDir_iff q).mpr hq))
    rw [hsame, hq]
  · exact (write_frame c hr).trans hq

theorem leads_mkdirs {rest : PathName} (hrest : PlainPath rest) :
    (u.tree.mkdirs (base ++ rest)).2.Leads base (clean root) :=
  Volume.Leads.mono h fun _ hq => (h.mkdirs_grown hrest).of_some hq

end

section

variable {ε τ κ α : Type} {kit : Kit ε τ κ} {sha256 : Hash} {supply : ℕ → Point}
  {root base : PathName} {u : Disk} {raised : Errno → ε} {Post : Except ε α → Disk → Prop}

theorem check_guarded {β : Type} {r : Except Errno β} {f : β → Prog Cmd Ans ε α}
    (herr : ∀ e, Post (.error e) u)
    (hf : ∀ b, (f b).Guarded (Disk.semantics supply) (TouchesInside root) u Post) :
    (check raised r >>= f).Guarded (Disk.semantics supply) (TouchesInside root) u Post :=
  Prog.guarded_lift_bind herr fun b _ => hf b

variable (hrooted : kit.Rooted root base)

include hrooted

/-- A bundle that is read stands in the directory of the root. -/
theorem readBundle_guarded (lawful : kit.Lawful sha256) {f : Bundle τ → Prog Cmd Ans ε α}
    (herr : ∀ e, Post (.error e) u)
    (hf : u.tree.Leads base (clean root) → ∀ b,
      (f b).Guarded (Disk.semantics supply) (TouchesInside root) u Post) :
    (readBundleWith kit root >>= f).Guarded (Disk.semantics supply) (TouchesInside root) u Post := by
  rw [readBundleWith, hrooted.join_bundle, Prog.guarded_bind]
  refine (Prog.guarded_exec_bind _ _ _ _).mpr ⟨fun _ hq => hq.elim, ?_⟩
  have hstep : (Disk.semantics supply).step (.read (base ++ [bundleFilename])) u =
      (u.tree.read (base ++ [bundleFilename]), u) := rfl
  rw [hstep]
  cases hb : kit.parseBundle (kit.file (u.tree.read (base ++ [bundleFilename]))) with
  | error e => exact herr e
  | ok b =>
    obtain ⟨d, hd⟩ := lawful.parse_ok _ _ hb
    refine hf ?_ b
    unfold Volume.read at hd
    split at hd
    · next q c hstat =>
      have hleads := Volume.leads_of_stat plain_bundleFilename hstat
      have hclean : base.foldl Volume.next [] = clean root := hrooted.clean
      rwa [hclean] at hleads
    · cases hd
    · cases hd

omit hrooted in
theorem writeKey_guarded (h : u.tree.Leads base (clean root)) {rest : PathName}
    (hrest : PlainPath rest) (hne : rest ≠ []) (key : Point) {Post : Except ε Unit → Disk → Prop}
    (hdone : ∀ r (t : Disk), t.tree.Leads base (clean root) → Post r t) :
    (writeKeyWith kit (base ++ servicesDirname :: rest) key).Guarded (Disk.semantics supply)
      (TouchesInside root) u Post := by
  have hafter : ((Disk.semantics supply).step
      (.write (base ++ servicesDirname :: rest) (.key key)) u).2.tree.Leads base (clean root) :=
    leads_write h _ _
  refine (Prog.guarded_exec_bind _ _ _ _).mpr ⟨write_inside h hrest hne _, ?_⟩
  refine check_guarded (fun e => hdone _ _ hafter) fun _ => ?_
  split_ifs
  · exact ⟨chmod_inside hafter hrest hne, hdone _ _ hafter⟩
  · exact hdone _ _ hafter

theorem setKeys_guarded (h : u.tree.Leads base (clean root)) (b : Bundle τ) (id : String)
    (keys : List Json) {Post : Except ε Unit → Disk → Prop} (hdone : ∀ r t, Post r t) :
    (setKeysWith kit root b id keys).Guarded (Disk.semantics supply) (TouchesInside root) u Post := by
  rw [setKeysWith, hrooted.join_bundle]
  exact ⟨writeBundle_inside h _, hdone _ _⟩

variable (lawful : kit.Lawful sha256) {name : String}

theorem provision_guarded (h : u.tree.Leads base (clean root)) (hname : PlainPath (splitSlash name))
    (b : Bundle τ) (id : SpiffeId) :
    (provisionWith kit root b id (base ++ servicesDirname :: splitSlash name)).Guarded
      (Disk.semantics supply) (TouchesInside root) u fun _ _ => True := by
  have hdir : PlainPath (servicesDirname :: splitSlash name) :=
    (plainPath_singleton plain_servicesDirname).append hname
  have hkey := hname.append (plainPath_singleton plain_keyFilename)
  have hid := hname.append (plainPath_singleton plain_idFilename)
  unfold provisionWith
  rw [hrooted.join_file hname plain_keyFilename splitSlash_keyFilename,
    hrooted.join_file hname plain_idFilename splitSlash_idFilename]
  refine (Prog.guarded_exec_bind _ _ _ _).mpr ⟨mkdirs_inside h hname, ?_⟩
  have hmade : ((Disk.semantics supply).step
      (.mkdirs (base ++ servicesDirname :: splitSlash name)) u).2.tree.Leads base (clean root) :=
    leads_mkdirs h hdir
  refine check_guarded (fun _ => trivial) fun _ => ?_
  have hgenerated : ((Disk.semantics supply).step .generateKey ((Disk.semantics supply).step
      (.mkdirs (base ++ servicesDirname :: splitSlash name)) u).2).2.tree.Leads base (clean root) :=
    hmade
  refine (Prog.guarded_exec_bind _ _ _ _).mpr ⟨fun _ hq => hq.elim, ?_⟩
  rw [Prog.guarded_bind]
  refine writeKey_guarded hgenerated hkey (by simp) _ fun r t ht => ?_
  cases r with
  | error e => trivial
  | ok _ =>
    refine (Prog.guarded_exec_bind _ _ _ _).mpr ⟨write_inside ht hid (by simp) _, ?_⟩
    refine check_guarded (fun _ => trivial) fun _ => ?_
    refine Prog.guarded_lift_bind (fun _ => trivial) fun k _ => ?_
    rw [Prog.guarded_bind]
    refine setKeys_guarded hrooted (leads_write ht _ _) _ _ _ fun r t => ?_
    cases r with
    | error e => trivial
    | ok _ => trivial

include lawful

/-- Whatever the name is, `add_service` writes inside. -/
theorem addService_guarded (name : String) (u : Disk) :
    (addServiceWith kit root name).Guarded (Disk.semantics supply) (TouchesInside root) u
      fun _ _ => True := by
  unfold addServiceWith
  refine readBundle_guarded hrooted lawful (fun _ => trivial) fun h b => ?_
  refine Prog.guarded_lift_bind (fun _ => trivial) fun id hid => ?_
  have hname : PlainPath (splitSlash name) :=
    plain_of_isServiceName ⟨id, (lawful.parseId_ok _ _).mp hid⟩
  dsimp only
  rw [hrooted.join_service hname]
  refine (Prog.guarded_exec_bind _ _ _ _).mpr ⟨fun _ hq => hq.elim, ?_⟩
  split_ifs
  · trivial
  · exact provision_guarded hrooted h hname b id

theorem rotateService_guarded (name : String) (keepOld : Bool) (u : Disk) :
    (rotateServiceWith kit root name keepOld).Guarded (Disk.semantics supply) (TouchesInside root) u
      fun _ _ => True := by
  unfold rotateServiceWith
  refine readBundle_guarded hrooted lawful (fun _ => trivial) fun h b => ?_
  refine Prog.guarded_lift_bind (fun _ => trivial) fun id hid => ?_
  have hname : PlainPath (splitSlash name) :=
    plain_of_isServiceName ⟨id, (lawful.parseId_ok _ _).mp hid⟩
  have hkey := hname.append (plainPath_singleton plain_keyFilename)
  have hjoin : kit.join root [servicesDirname, name, keyFilename] =
      base ++ servicesDirname :: (splitSlash name ++ [keyFilename]) := by
    rw [hrooted.join_root _ fun part hp => ?_]
    · rw [List.flatMap_cons, List.flatMap_cons, splitSlash_servicesDirname, List.flatMap_singleton,
        splitSlash_keyFilename]
      rfl
    · rcases List.mem_cons.mp hp with rfl | hp
      · exact plainPath_singleton plain_servicesDirname
      · rcases List.mem_cons.mp hp with rfl | hp
        · exact hname
        · rw [List.mem_singleton.mp hp]
          exact plainPath_singleton plain_keyFilename
  dsimp only
  rw [hjoin]
  refine (Prog.guarded_exec_bind _ _ _ _).mpr ⟨fun _ hq => hq.elim, ?_⟩
  split_ifs
  swap
  · trivial
  unfold renewWith
  have hgenerated :
      ((Disk.semantics supply).step .generateKey u).2.tree.Leads base (clean root) := h
  refine (Prog.guarded_exec_bind _ _ _ _).mpr ⟨fun _ hq => hq.elim, ?_⟩
  refine Prog.guarded_lift_bind (fun _ => trivial) fun k _ => ?_
  refine Prog.guarded_lift_bind (fun _ => trivial) fun others _ => ?_
  rw [Prog.guarded_bind]
  refine writeKey_guarded hgenerated hkey (by simp) _ fun r t ht => ?_
  cases r with
  | error e => trivial
  | ok _ =>
    dsimp only
    rw [Prog.guarded_bind]
    refine setKeys_guarded hrooted ht _ _ _ fun r t => ?_
    cases r with
    | error e => trivial
    | ok _ => trivial

end

/-! ### Calls and names -/

/-- `add_service` or `rotate_service`. -/
def Call.Provisions : Call → Prop
  | .addService _ => True
  | .rotateService _ _ => True
  | _ => False

namespace Impl

variable (rt : Runtime) (supply : ℕ → Point) (root : PathName)

/-- The call, started in `s`, issues the command in `u`. -/
def Issues (call : Call) (s : Disk) (c : Cmd) (u : Disk) : Impl → Prop
  | python => (Py.perform rt root call).Issues (Disk.semantics supply) s c u
  | typescript => (Ts.perform rt root call).Issues (Disk.semantics supply) s c u
  | go => (Go.perform rt root call).Issues (Disk.semantics supply) s c u

/-- Where the path of a file of the service leads. -/
def fileOf (name file : String) (impl : Impl) : PathName :=
  clean (impl.join (impl.join root [servicesDirname, name]) [file])

end Impl

section

variable {ε τ κ : Type} {kit : Kit ε τ κ} {sha256 : Hash} {supply : ℕ → Point}
  {root base : PathName} (hrooted : kit.Rooted root base)

include hrooted

theorem performWith_guarded (lawful : kit.Lawful sha256)
    (removeFiles : PathName → Prog Cmd Ans ε Unit) {call : Call} (hcall : call.Provisions) (s : Disk) :
    (performWith kit removeFiles root call).Guarded (Disk.semantics supply) (TouchesInside root) s
      fun _ _ => True := by
  have hdiscard : ∀ {p : Prog Cmd Ans ε SpiffeId},
      p.Guarded (Disk.semantics supply) (TouchesInside root) s (fun _ _ => True) →
      (discard p).Guarded (Disk.semantics supply) (TouchesInside root) s fun _ _ => True := by
    intro p hp
    rw [discard, Prog.guarded_bind]
    refine hp.mono fun r t _ => ?_
    cases r with
    | error e => trivial
    | ok _ => trivial
  cases call with
  | initRoot _ => exact hcall.elim
  | addService name => exact hdiscard (addService_guarded hrooted lawful name s)
  | rotateService name keepOld => exact hdiscard (rotateService_guarded hrooted lawful name keepOld s)
  | removeService _ => exact hcall.elim

theorem clean_file {name file : String} (hname : PlainPath (splitSlash name))
    (hfile : Volume.Plain file) (hsplit : splitSlash file = [file]) :
    clean (kit.join (kit.join root [servicesDirname, name]) [file]) =
      serviceDir (clean root) name ++ [file] := by
  have hdir : PlainPath (servicesDirname :: splitSlash name) :=
    (plainPath_singleton plain_servicesDirname).append hname
  rw [hrooted.join_service hname, hrooted.join_file hname hfile hsplit, clean_append,
    hrooted.clean, ← List.cons_append,
    foldl_next_plain _ _ (hdir.append (plainPath_singleton hfile)), ← List.append_assoc]
  rfl

end

theorem Impl.fileOf_eq (rt : Runtime) (root : PathName) {name file : String}
    (hname : PlainPath (splitSlash name)) (hfile : Volume.Plain file)
    (hsplit : splitSlash file = [file]) (impl : Impl) :
    impl.fileOf root name file = serviceDir (clean root) name ++ [file] := by
  cases impl with
  | python => exact clean_file (py_rooted rt root) hname hfile hsplit
  | typescript => exact clean_file (ts_rooted rt root) hname hfile hsplit
  | go => exact clean_file (go_rooted rt root) hname hfile hsplit

/-- For every root and every name, an added or rotated service writes the bundle
and below `services`, which is made if it is missing. Two accepted names have
no file in common. -/
theorem provisioning_confined (rt : Runtime) (supply : ℕ → Point) (root : PathName) (impl : Impl) :
    (∀ (call : Call) (s u : Disk) (c : Cmd) (q : PathName), call.Provisions →
      impl.Issues rt supply root call s c u → c.Touches u q → Inside root u q) ∧
    ∀ (impl' : Impl) (td td' a b : String), IsServiceName td a → IsServiceName td' b → a ≠ b →
      impl.fileOf root a idFilename ≠ impl'.fileOf root b idFilename ∧
      impl.fileOf root a keyFilename ≠ impl'.fileOf root b keyFilename ∧
      impl.fileOf root a idFilename ≠ impl'.fileOf root b keyFilename := by
  constructor
  · intro call s u c q hcall hissued htouches
    cases impl with
    | python =>
      rw [Impl.Issues, Py.perform_eq] at hissued
      exact (performWith_guarded (py_rooted rt root) (Py.kit_lawful rt) _ hcall s).good hissued q
        htouches
    | typescript =>
      rw [Impl.Issues, Ts.perform_eq] at hissued
      exact (performWith_guarded (ts_rooted rt root) (Ts.kit_lawful rt) _ hcall s).good hissued q
        htouches
    | go =>
      rw [Impl.Issues, Go.perform_eq] at hissued
      exact (performWith_guarded (go_rooted rt root) (Go.kit_lawful rt) _ hcall s).good hissued q
        htouches
  · intro impl' td td' a b ha hb hne
    have hid : ∀ {td name : String}, IsServiceName td name → ∀ impl : Impl,
        impl.fileOf root name idFilename = idPath (clean root) name := by
      intro td name hname impl
      exact impl.fileOf_eq rt root (plain_of_isServiceName hname) plain_idFilename
        splitSlash_idFilename
    have hkey : ∀ {td name : String}, IsServiceName td name → ∀ impl : Impl,
        impl.fileOf root name keyFilename = keyPath (clean root) name := by
      intro td name hname impl
      exact impl.fileOf_eq rt root (plain_of_isServiceName hname) plain_keyFilename
        splitSlash_keyFilename
    rw [hid ha, hid hb, hkey ha, hkey hb]
    refine ⟨?_, ?_, ?_⟩
    · intro he
      exact hne (idPath_injective (clean root) he)
    · intro he
      exact hne (keyPath_injective (clean root) he)
    · exact idPath_ne_keyPath (clean root) a b

namespace Sample

/-- A root with a bundle and nothing else. -/
def unserved : Disk :=
  ⟨(emptyVolume.put ["srv"] .dir).put ["srv", "bundle.json"]
    (.file (.json (document (.str "a.b") ∅))), 0⟩

theorem unserved_issues : Impl.typescript.Issues runtime supply root (.addService "x") unserved
    (.mkdirs ["srv", "services", "x"]) unserved :=
  Or.inr (Or.inr (Or.inl ⟨rfl, rfl⟩))

theorem unserved_touches : (Cmd.mkdirs ["srv", "services", "x"]).Touches unserved
    ["srv", "services"] := by
  have hafter : (unserved.tree.mkdirs ["srv", "services", "x"]).2.get ["srv", "services"] =
      some .dir := rfl
  have hbefore : unserved.tree.get ["srv", "services"] = none := rfl
  rw [Cmd.Touches, hafter, hbefore]
  exact Option.some_ne_none _

theorem serviceName_x : IsServiceName "a.b" "x" := ⟨⟨"a.b", "/x"⟩, rfl⟩
theorem serviceName_xy : IsServiceName "a.b" "x/y" := ⟨⟨"a.b", "/x/y"⟩, rfl⟩

end Sample

theorem provisioning_confined_sample :
    Inside Sample.root Sample.unserved ["srv", "services"] ∧
      Impl.python.fileOf ["srv", "..", "srv"] "x" "key.pem" ≠
        Impl.go.fileOf ["srv", "..", "srv"] "x/y" "key.pem" := by
  refine ⟨?_, ?_⟩
  · exact (provisioning_confined Sample.runtime Sample.supply Sample.root .typescript).1
      (.addService "x") _ _ _ _ trivial Sample.unserved_issues Sample.unserved_touches
  · exact ((provisioning_confined Sample.runtime Sample.supply ["srv", "..", "srv"] .python).2 .go
      "a.b" "a.b" "x" "x/y" Sample.serviceName_x Sample.serviceName_xy (by decide)).2.1

/-- `addService` makes the directory of the services, which is neither the
bundle nor below itself. -/
theorem add_makes_services :
    IsServiceName "a.b" "x" ∧ ¬ ∀ (u : Disk) (c : Cmd) (q : PathName),
      Impl.typescript.Issues Sample.runtime Sample.supply Sample.root (.addService "x")
        Sample.unserved c u → c.Touches u q →
      q = clean Sample.root ++ [bundleFilename] ∨
        ∃ rest, rest ≠ [] ∧ q = clean Sample.root ++ servicesDirname :: rest := by
  refine ⟨Sample.serviceName_x, ?_⟩
  intro h
  rcases h _ _ _ Sample.unserved_issues Sample.unserved_touches with hbundle | ⟨rest, hne, hbelow⟩
  · exact absurd hbundle (by decide)
  · have hlist : ["srv", "services"] = "srv" :: "services" :: rest := hbelow
    exact hne (List.cons.inj (List.cons.inj hlist).2).2.symm

end Spiffile
