import Spiffile.Framing
import Spiffile.Identity

/-!
# What is provisioned can be used

After any calls that return, a process that is started with the environment of a
service loads the identity and the key that the bundle binds to it. What it mints
is accepted by the other services, in whatever language each of them is written,
and stays accepted over later calls that do not revoke the key.
-/

namespace Spiffile

open FileTree

/-! ### Loading a service -/

theorem not_mem_of_mem_splitOn {α : Type} [BEq α] [LawfulBEq α] {a : α} {l part : List α}
    (h : part ∈ l.splitOn a) : a ∉ part := by
  induction l generalizing part with
  | nil =>
    rw [List.splitOn_nil, List.mem_singleton] at h
    rw [h]
    exact List.not_mem_nil
  | cons x l ih =>
    rw [List.splitOn_cons_eq_if_modifyHead] at h
    split_ifs at h with hx
    · rcases List.mem_cons.mp h with rfl | h
      · exact List.not_mem_nil
      · exact ih h
    · cases hl : l.splitOn a with
      | nil => exact absurd hl (List.splitOn_ne_nil a l)
      | cons first rest =>
        rw [hl, List.modifyHead_cons] at h
        rcases List.mem_cons.mp h with rfl | h
        · have hfirst : a ∉ first := ih (hl ▸ List.mem_cons_self)
          exact fun hm => (List.mem_cons.mp hm).elim (fun he => hx (beq_iff_eq.mpr he.symm)) hfirst
        · exact ih (hl ▸ List.mem_cons_of_mem _ h)

/-- No name holds a slash. -/
def NoSlash (p : PathName) : Prop := ∀ name ∈ p, '/' ∉ name.toList

theorem NoSlash.append {p q : PathName} (hp : NoSlash p) (hq : NoSlash q) : NoSlash (p ++ q) :=
  fun name hn => (List.mem_append.mp hn).elim (hp name) (hq name)

theorem noSlash_splitSlash (text : String) : NoSlash (splitSlash text) := by
  intro name hname
  obtain ⟨cs, hcs, rfl⟩ := List.mem_map.mp hname
  rw [String.toList_ofList]
  exact not_mem_of_mem_splitOn hcs

section

variable {root : PathName} (hslash : NoSlash root)

include hslash

theorem noSlash_serviceDir (name : String) : NoSlash (serviceDir root name) := by
  refine hslash.append fun part hpart => ?_
  rcases List.mem_cons.mp hpart with rfl | hpart
  · decide
  · exact noSlash_splitSlash name part hpart

theorem noSlash_keyPath (name : String) : NoSlash (keyPath root name) :=
  (noSlash_serviceDir hslash name).append (by decide : ∀ n ∈ [keyFilename], '/' ∉ n.toList)

theorem noSlash_idPath (name : String) : NoSlash (idPath root name) :=
  (noSlash_serviceDir hslash name).append (by decide : ∀ n ∈ [idFilename], '/' ∉ n.toList)

theorem noSlash_bundlePath : NoSlash (bundlePath root) :=
  hslash.append (by decide : ∀ n ∈ [bundleFilename], '/' ∉ n.toList)

end

/-- Paths read back from their text. -/
def ReadsPaths (path : String → PathName) : Prop :=
  ∀ p : PathName, p ≠ [] → PlainPath p → NoSlash p → path (pathText p) = p

theorem serviceFiles_eq {ε τ κ : Type} {kit : Kit ε τ κ} {sha256 : Hash} (lawful : kit.Lawful sha256)
    {root : PathName} (hroot : PlainPath root) (hslash : NoSlash root) {name : String}
    (hname : PlainPath (splitSlash name)) {path : String → PathName} (hpath : ReadsPaths path) :
    envPaths path (serviceEnvWith kit.join root name) =
      ⟨idPath root name, keyPath root name, bundlePath root⟩ := by
  simp only [envPaths, serviceEnvWith_id, serviceEnvWith_key, serviceEnvWith_bundle, Option.getD_some,
    join_service lawful hroot hname, join_id lawful hroot hname, join_key lawful hroot hname,
    join_bundle lawful hroot]
  rw [hpath _ (by simp [idPath]) (plainPath_idPath hroot hname) (noSlash_idPath hslash name),
    hpath _ (by simp [keyPath]) (plainPath_keyPath hroot hname) (noSlash_keyPath hslash name),
    hpath _ (by simp [bundlePath]) (plainPath_bundlePath hroot) (noSlash_bundlePath hslash)]

section

variable (rt : Runtime) {root : PathName} (hroot : PlainPath root) (hslash : NoSlash root)
  {name : String} (hname : PlainPath (splitSlash name))

include rt hroot hslash hname

theorem py_serviceFiles : envPaths Py.path (Py.serviceEnv root name) =
    ⟨idPath root name, keyPath root name, bundlePath root⟩ :=
  serviceFiles_eq (Py.kit_lawful rt) hroot hslash hname fun _ hne hp hs => py_path_pathText hne hp hs

theorem ts_serviceFiles : envPaths pathNames (Ts.serviceEnv root name) =
    ⟨idPath root name, keyPath root name, bundlePath root⟩ :=
  serviceFiles_eq (Ts.kit_lawful rt) hroot hslash hname fun _ hne _ hs => pathNames_pathText hne hs

theorem go_serviceFiles : envPaths pathNames (Go.serviceEnv root name) =
    ⟨idPath root name, keyPath root name, bundlePath root⟩ :=
  serviceFiles_eq (Go.kit_lawful rt) hroot hslash hname fun _ hne _ hs => pathNames_pathText hne hs

end

/-- The `id` file that provisioning writes. -/
theorem idOf_written {id : SpiffeId} (hid : Go.parseSpiffeID id.toString = .ok id) (impl : Impl) :
    impl.idOf (id.toString ++ "\n") = some id := by
  refine idOf_eq_some.mpr ⟨hid, [], ['\n'], by simp, fun c hc => ?_⟩
  rw [List.nil_append, List.mem_singleton] at hc
  rw [hc]
  cases impl <;> decide

section

variable {supply : ℕ → Point} {s : Disk}

theorem read_leadsTo {ε α : Type} {p : PathName} (hp : PlainPath p) {c : Content}
    (hget : s.tree.get p = some (.file c)) {raised : Errno → ε} (f : Content → Prog Cmd Ans ε α) :
    (read p >>= fun answer => check raised answer >>= f).LeadsTo (Disk.semantics supply) s (f c) s := by
  have hread : s.tree.read p = .ok c := (Volume.read_plain_eq_ok hp _ _).mpr hget
  refine (Prog.leadsTo_exec_bind (Cmd.read p) _ s).trans ?_
  exact check_leadsTo f hread

/-- A key source gives the key in its file. -/
theorem Impl.privateKey_of_file {self : Identity} (hplain : PlainPath self.keyFile) {key : Point}
    (hkey : s.tree.get self.keyFile = some (.file (.key key))) (impl : Impl) :
    impl.privateKey supply s self = some key := by
  cases impl with
  | python =>
    have h : (Py.privateKey self).Returns (Disk.semantics supply) s key s :=
      (read_leadsTo hplain hkey _).returns rfl
    rw [Impl.privateKey, h]
    rfl
  | typescript =>
    have h : (Ts.privateKey self).Returns (Disk.semantics supply) s key s :=
      (read_leadsTo hplain hkey _).returns rfl
    rw [Impl.privateKey, h]
    rfl
  | go =>
    have h : (Go.privateKey self).Returns (Disk.semantics supply) s key s :=
      (read_leadsTo hplain hkey _).returns rfl
    rw [Impl.privateKey, h]
    rfl

/-- A service whose two files are there is loaded. -/
theorem Impl.loadIdentity_of_files (rt : Runtime) {root : PathName} (hroot : PlainPath root)
    (hslash : NoSlash root) {name : String} (hname : PlainPath (splitSlash name)) {id : SpiffeId}
    (hid : Go.parseSpiffeID id.toString = .ok id)
    (htext : s.tree.get (idPath root name) = some (.file (.text (id.toString ++ "\n")))) {key : Point}
    (hkey : s.tree.get (keyPath root name) = some (.file (.key key))) (other : Content → String)
    (impl : Impl) : impl.loadIdentity supply other s root name =
      some ⟨id, keyPath root name, bundlePath root⟩ := by
  have hidPlain := plainPath_idPath hroot hname
  cases impl with
  | python =>
    have hparse : Py.parse (Py.strip (id.toString ++ "\n")) = .ok id :=
      toOption_eq_some (idOf_written hid .python)
    have h : (Py.loadIdentity other root name).Returns (Disk.semantics supply) s
        ⟨id, keyPath root name, bundlePath root⟩ s := by
      rw [Py.loadIdentity, py_serviceFiles rt hroot hslash hname]
      refine (read_leadsTo hidPlain htext _).returns ?_
      refine (Prog.leadsTo_lift_bind _ s (mapError_eq_ok.mpr hparse)).returns ?_
      exact Prog.returns_pure.mpr ⟨rfl, rfl⟩
    rw [Impl.loadIdentity, h]
    rfl
  | typescript =>
    have hparse : Ts.parse (Ts.trim (id.toString ++ "\n")) = .ok id :=
      toOption_eq_some (idOf_written hid .typescript)
    have h : (Ts.loadIdentity other root name).Returns (Disk.semantics supply) s
        ⟨id, keyPath root name, bundlePath root⟩ s := by
      rw [Ts.loadIdentity, ts_serviceFiles rt hroot hslash hname]
      refine (read_leadsTo hidPlain htext _).returns ?_
      refine (Prog.leadsTo_lift_bind _ s (mapError_eq_ok.mpr hparse)).returns ?_
      exact Prog.returns_pure.mpr ⟨rfl, rfl⟩
    rw [Impl.loadIdentity, h]
    rfl
  | go =>
    have hparse : Go.parseSpiffeID (Go.trimSpace (id.toString ++ "\n")) = .ok id :=
      toOption_eq_some (idOf_written hid .go)
    have hsource : (Go.privateKey ⟨id, keyPath root name, bundlePath root⟩).Returns
        (Disk.semantics supply) s key s :=
      (read_leadsTo (plainPath_keyPath hroot hname) hkey _).returns rfl
    have h : (Go.loadIdentity other root name).Returns (Disk.semantics supply) s
        ⟨id, keyPath root name, bundlePath root⟩ s := by
      rw [Go.loadIdentity, go_serviceFiles rt hroot hslash hname]
      refine (read_leadsTo hidPlain htext _).returns ?_
      refine (Prog.leadsTo_lift_bind _ s (mapError_eq_ok.mpr hparse)).returns ?_
      refine (Prog.leadsTo_bind hsource).returns ?_
      exact Prog.returns_pure.mpr ⟨rfl, rfl⟩
    rw [Impl.loadIdentity, h]
    rfl

end

/-! ### A service of a tidy root -/

section

variable {rt : Runtime} {supply : ℕ → Point} {root : PathName} {td : String} {ids : Identities}
  {owner : ℕ → String} {s : Disk} {name : String}

/-- A service with a key is loaded with its ID, whatever else is set in the
environment. -/
theorem Tidy.loads (h : Tidy rt.sha256 supply root td ids owner s) (hroot : PlainPath root)
    (hslash : NoSlash root) (hname : IsServiceName td name) {c : Content}
    (hc : s.tree.get (keyPath root name) = some (.file c)) :
    ∃ id i rest, id.toString = serviceId td name ∧ Go.parseSpiffeID id.toString = .ok id ∧
      c = .key (supply i) ∧ ids.lookup id.toString = some (jwkAt rt.sha256 supply i :: rest) ∧
      ∀ (other : Content → String) (base : Env) (impl : Impl),
        impl.fromEnv supply other s ((impl.serviceEnv root name).over base) =
          some ⟨id, keyPath root name, bundlePath root⟩ := by
  obtain ⟨htext, i, rest, rfl, hlook⟩ := h.live name hname c hc
  obtain ⟨id, hid⟩ := hname
  have hstr : id.toString = serviceId td name := toString_of_parse hid
  rw [← hstr] at hid htext hlook
  refine ⟨id, i, rest, hstr, hid, rfl, hlook, fun other base impl => ?_⟩
  rw [fromEnv_serviceEnv]
  exact impl.loadIdentity_of_files rt hroot hslash (plain_of_isServiceName ⟨id, hstr ▸ hid⟩) hid htext
    hc other

/-- A listed key among the others of its list. -/
theorem Tidy.keyList (h : Tidy rt.sha256 supply root td ids owner s)
    (hkids : Set.InjOn (fun i => (supply i).kid rt.sha256) (Set.Iio s.generated)) {id : String}
    {keys : List Json} (hlook : ids.lookup id = some keys) {i : ℕ}
    (hi : jwkAt rt.sha256 supply i ∈ keys) : KeyList rt.sha256 (supply i) keys := by
  obtain ⟨-, is, rfl, -, -, his⟩ := h.listed id keys hlook
  have hjwk : ∀ q j, IsP256Jwk rt.sha256 q j → ∀ k, jwkAt rt.sha256 supply k = .obj j → supply k = q := by
    rintro q j hq k ⟨⟩
    have hp := isP256Jwk_jwk rt.sha256 (supply k)
    have hx := Json.str.inj (Option.some.inj (hp.x.symm.trans hq.x))
    have hy := Json.str.inj (Option.some.inj (hp.y.symm.trans hq.y))
    exact Point.ext_xy (coord_injective (supply k).x_lt q.x_lt hx)
      (coord_injective (supply k).y_lt q.y_lt hy)
  refine ⟨hi, fun jwk hjwk => ?_, fun q j hj hq hkid => ?_⟩
  · obtain ⟨k, -, rfl⟩ := List.mem_map.mp hjwk
    exact ⟨supply k, _, rfl, isP256Jwk_jwk rt.sha256 (supply k)⟩
  · obtain ⟨k, hk, hkj⟩ := List.mem_map.mp hj
    obtain ⟨l, hl, hli⟩ := List.mem_map.mp hi
    have hqk := hjwk q j hq k hkj
    have hil := hjwk (supply i) _ (isP256Jwk_jwk rt.sha256 (supply i)) l hli
    rw [← hqk, ← hil] at hkid
    have hkl : k = l := hkids (Set.mem_Iio.mpr (his k hk).1) (Set.mem_Iio.mpr (his l hl).1) hkid
    rw [← hqk, ← hil, hkl]

end

/-! ### Calls that keep a key -/

section

variable {rt : Runtime} {supply : ℕ → Point} {root : PathName} {s t : Disk}

/-- What holds of the program behind a call, in whatever language. -/
theorem Impl.Returns.performed {call : Call} {P : Prop}
    (h : ∀ {ε τ κ : Type} (kit : Kit ε τ κ) (removeFiles : PathName → Prog Cmd Ans ε Unit),
      kit.Lawful rt.sha256 →
      (performWith kit removeFiles root call).Returns (Disk.semantics supply) s () t → P) {impl : Impl}
    (hret : impl.Returns rt supply root call s t) : P := by
  cases impl with
  | python =>
    rw [Impl.Returns, Py.perform_eq] at hret
    exact h _ _ (Py.kit_lawful rt) hret
  | typescript =>
    rw [Impl.Returns, Ts.perform_eq] at hret
    exact h _ _ (Ts.kit_lawful rt) hret
  | go =>
    rw [Impl.Returns, Go.perform_eq] at hret
    exact h _ _ (Go.kit_lawful rt) hret

theorem Impl.Returns.visits {call : Call} {impl : Impl} (hret : impl.Returns rt supply root call s t) :
    impl.Visits rt supply root call s t := by
  cases impl with
  | python => exact Prog.Returns.visits hret
  | typescript => exact Prog.Returns.visits hret
  | go => exact Prog.Returns.visits hret

theorem discard_returns {ε α : Type} {p : Prog Cmd Ans ε α}
    (h : (discard p).Returns (Disk.semantics supply) s () t) :
    ∃ a, p.Returns (Disk.semantics supply) s a t := by
  obtain ⟨a, u, hp, hpure⟩ := Prog.returns_bind.mp h
  obtain ⟨-, rfl⟩ := Prog.returns_pure.mp hpure
  exact ⟨a, hp⟩

variable (hroot : PlainPath root)

include hroot

/-- Adding a service that has a key does nothing. -/
theorem Impl.Returns.add_present {name : String} {n : Node Content}
    (hn : s.tree.get (keyPath root name) = some n) {impl : Impl}
    (hret : impl.Returns rt supply root (.addService name) s t) : s = t := by
  refine hret.performed fun kit removeFiles lawful h => ?_
  obtain ⟨r, h⟩ := discard_returns h
  obtain ⟨b, -, -, ⟨-, hst⟩ | hadded⟩ := addService_returns hroot lawful h
  · exact hst
  · rw [hadded.fresh] at hn
    cases hn

theorem Impl.Returns.rotate_generated {name : String} {keepOld : Bool} {impl : Impl}
    (hret : impl.Returns rt supply root (.rotateService name keepOld) s t) :
    t.generated = s.generated + 1 := by
  refine hret.performed fun kit removeFiles lawful h => ?_
  obtain ⟨r, h⟩ := discard_returns h
  obtain ⟨b, -, -, hrenewed⟩ := rotateService_returns hroot lawful h
  exact hrenewed.generated

end

/-- A rotation keeps the derived JWKs with other kids as they are. -/
theorem Impl.Kept.jwks {rt : Runtime} {new : Point} {qs : List Point} {others : List Json} {impl : Impl}
    (h : impl.Kept rt new (qs.map fun q => .obj (q.jwk rt.sha256)) others) :
    others = (qs.filter fun q => q.kid rt.sha256 ≠ new.kid rt.sha256).map
      fun q => .obj (q.jwk rt.sha256) := by
  cases impl with
  | python =>
    rw [Impl.Kept, Py.keepOthers_jwks] at h
    exact (Except.ok.inj h).symm
  | typescript =>
    rw [Impl.Kept, Ts.keepOthers_jwks] at h
    exact (Except.ok.inj h).symm
  | go => exact h.trans (Go.keepOthers_jwks rt.table rt.sha256 new qs)

/-- The call is for other services, rotates with the old keys kept, or adds what
is there. -/
def KeepsKeys (root : PathName) (name : String) (s : Disk) (call : Call) : Prop :=
  call.On name → call = .rotateService name true ∨
    call = .addService name ∧ ∃ n, s.tree.get (keyPath root name) = some n

/-- One call of a run that keeps the keys of a service. -/
def KeepingCall (rt : Runtime) (supply : ℕ → Point) (root : PathName) (td name : String)
    (s t : Disk) : Prop :=
  ∃ (impl : Impl) (call : Call), call.Names td ∧ impl.Returns rt supply root call s t ∧
    (∀ m, call = .removeService m → ¬ impl.StripsId root td m s) ∧ KeepsKeys root name s call

theorem KeepingCall.serviceCall {rt : Runtime} {supply : ℕ → Point} {root : PathName}
    {td name : String} {s t : Disk} (h : KeepingCall rt supply root td name s t) :
    ServiceCall rt supply root td s t := by
  obtain ⟨impl, call, hnames, hret, hstrips, -⟩ := h
  exact ⟨impl, call, hnames, hret, hstrips⟩

section

variable {rt : Runtime} {supply : ℕ → Point} {root : PathName} (hroot : PlainPath root) {td : String}
  (htd : IsTrustDomain td.toList) {ids : Identities} {owner : ℕ → String} {s t : Disk}
  {name : String}

/-- The `i`-th key is listed under the ID of the service. -/
def HasKey (rt : Runtime) (supply : ℕ → Point) (root : PathName) (td name : String) (i : ℕ)
    (s : Disk) : Prop :=
  ∃ ids owner keys, Tidy rt.sha256 supply root td ids owner s ∧
    ids.lookup (serviceId td name) = some keys ∧ jwkAt rt.sha256 supply i ∈ keys

include hroot

theorem ServiceCall.generated_le (h : Tidy rt.sha256 supply root td ids owner s)
    (hstep : ServiceCall rt supply root td s t) : s.generated ≤ t.generated := by
  obtain ⟨impl, call, -, hret, -⟩ := hstep
  have hsound : Sound rt.sha256 supply root (fun _ _ => True) s.generated s := by
    refine ⟨le_refl _, fun d hd => ?_⟩
    rw [h.bundle] at hd
    cases hd
    refine ⟨td, ids, rfl, fun id keys hl => ?_⟩
    obtain ⟨-, is, hkeys, -, -, his⟩ := h.listed id keys hl
    exact ⟨is, hkeys, fun i hi => ⟨(his i hi).1, trivial⟩⟩
  exact (hsound.visits hroot (fun _ _ _ => trivial) hret.visits).counted

include htd

theorem HasKey.step {i : ℕ} (h : HasKey rt supply root td name i s)
    (hstep : KeepingCall rt supply root td name s t)
    (hkids : Set.InjOn (fun i => (supply i).kid rt.sha256) (Set.Iio t.generated)) :
    HasKey rt supply root td name i t := by
  obtain ⟨ids, owner, keys, htidy, hlook, hi⟩ := h
  obtain ⟨ids', owner', htidy'⟩ := htidy.step hroot htd hstep.serviceCall
  obtain ⟨impl, call, hnames, hret, -, hkeeps⟩ := hstep
  -- what the caller's language finds afterwards is what the bundle lists
  have hlist : ∀ keys', impl.bound (bundleFile root t) (serviceId td name) = some keys' →
      jwkAt rt.sha256 supply i ∈ keys' → HasKey rt supply root td name i t :=
    fun keys' hb hmem => ⟨ids', owner', keys', htidy', (htidy'.bound hroot impl _).symm.trans hb, hmem⟩
  have hbefore := (htidy.bound hroot impl (serviceId td name)).trans hlook
  have hdomain : impl.domain (bundleFile root s) = some td := by
    rw [bundleFile_of_get hroot htidy.bundle, Impl.domain_document]
  by_cases hon : call.On name
  · rcases hkeeps hon with rfl | ⟨rfl, n, hn⟩
    · obtain ⟨others, hkept, -, hbound⟩ := hret.rotated_bound hroot htd hdomain
      obtain ⟨-, is, rfl, -, -, his⟩ := htidy.listed _ _ hlook
      refine hlist _ ((hbound _).trans (if_pos rfl)) (List.mem_cons_of_mem _ ?_)
      rw [if_pos rfl, hbefore, Option.getD_some,
        show is.map (jwkAt rt.sha256 supply) = (is.map supply).map fun q => .obj (q.jwk rt.sha256) by
          rw [List.map_map]; rfl] at hkept
      obtain ⟨k, hk, hki⟩ := List.mem_map.mp hi
      rw [hkept.jwks, ← hki]
      refine List.mem_map.mpr ⟨supply k, List.mem_filter.mpr ⟨List.mem_map_of_mem hk, ?_⟩, rfl⟩
      -- an older key has another kid than the new one
      have hlt := (his k hk).1
      have hgen := hret.rotate_generated hroot
      rw [decide_eq_true_iff]
      intro hkid
      have hks : k = s.generated :=
        hkids (Set.mem_Iio.mpr (by omega)) (Set.mem_Iio.mpr (by omega)) hkid
      omega
    · cases hret.add_present hroot hn
      exact hlist keys hbefore hi
  · have hm : ∃ m, call.On m ∧ IsServiceName td m ∧ m ≠ name := by
      cases call with
      | initRoot td' => exact hnames.elim
      | addService m => exact ⟨m, rfl, hnames, hon⟩
      | rotateService m keepOld => exact ⟨m, rfl, hnames, hon⟩
      | removeService m => exact ⟨m, rfl, hnames, hon⟩
    obtain ⟨m, honm, hm, hne⟩ := hm
    have hdoc := htidy.bundle
    have hframed := (hret.framed hroot hdoc (Impl.domain_document td ids impl) hm honm).2
      (serviceId td name) fun he => hne (serviceId_injective td he).symm
    rw [← bundleFile_of_get hroot hdoc] at hframed
    exact hlist keys (hframed.trans hbefore) hi

theorem Tidy.generated_le_run (h : Tidy rt.sha256 supply root td ids owner s)
    (hrun : Relation.ReflTransGen (ServiceCall rt supply root td) s t) : s.generated ≤ t.generated := by
  induction hrun with
  | refl => exact le_refl _
  | tail hrun hlast ih =>
    obtain ⟨ids', owner', htidy⟩ := h.run hroot htd hrun
    exact ih.trans (hlast.generated_le hroot htidy)

theorem HasKey.run {i : ℕ} (h : HasKey rt supply root td name i s)
    (hrun : Relation.ReflTransGen (KeepingCall rt supply root td name) s t)
    (hkids : Set.InjOn (fun i => (supply i).kid rt.sha256) (Set.Iio t.generated)) :
    HasKey rt supply root td name i t := by
  induction hrun using Relation.ReflTransGen.head_induction_on with
  | refl => exact h
  | head hstep hrest ih =>
    obtain ⟨ids, owner, keys, htidy, -⟩ := id h
    obtain ⟨ids', owner', htidy'⟩ := htidy.step hroot htd hstep.serviceCall
    have hle := htidy'.generated_le_run hroot htd
      (Relation.ReflTransGen.mono (fun _ _ => KeepingCall.serviceCall) _ _ hrest)
    exact ih (h.step hroot htd hstep (hkids.mono (Set.Iio_subset_Iio hle)))

end

/-! ### From the root to the caller -/

/-- The verifier reads what the minter writes for this receiver, and accepts its
signature. -/
def Impl.Conveys (libs : Libs) (minter verifier : Impl) (sender receiver : SpiffeId) (key : Point)
    (time : ℚ) (ttl : ℤ) : Prop :=
  ∀ token, minter.token libs sender key time receiver.toString ttl = some token →
    Arrives (verifier.segment libs) (verifier.accepted libs key) token
      (minter.header (key.kid libs.sha256)) (minter.claims sender receiver time ttl)

/-- A minted token is accepted over a list that holds its key. -/
theorem Impl.verify_of_minted {libs : Libs} (hpy : libs.py.Documented) (hgo : libs.go.Documented)
    {minter verifier : Impl} {sender receiver : SpiffeId} {key : Point} {time : ℚ} {ttl : ℤ}
    (hsender : Go.parseSpiffeID sender.toString = .ok sender)
    (hreceiver : Go.parseSpiffeID receiver.toString = .ok receiver) (hpos : 0 < ttl)
    (htime : minter = .python → 0 ≤ time) (hconveys : minter.Conveys libs verifier sender receiver key time ttl)
    {token : String} (htoken : minter.token libs sender key time receiver.toString ttl = some token)
    {now leeway : ℚ} (hwin : InWindow ⌊time⌋ (⌊time⌋ + ttl) leeway now) {file : BundleFile}
    {jwks : List Json} (hbound : verifier.bound file sender.toString = some jwks)
    (hlist : KeyList libs.sha256 key jwks) :
    verifier.verify libs receiver file now token leeway =
      some ⟨sender, .obj (minter.claims sender receiver time ttl)⟩ := by
  have hminted := Impl.minted sender receiver time ttl hpos minter htime
  have harrives := hconveys token htoken
  have halg := Impl.header_alg (key.kid libs.sha256) minter
  have hkid := Impl.header_kid (key.kid libs.sha256) minter
  cases verifier with
  | python =>
    rw [Impl.verify, Py.minted_accepted libs.py hpy libs.sha256 key sender receiver hsender hreceiver
      token _ _ halg hkid _ _ hminted harrives now leeway hwin file jwks
      (exists_of_toOption_bind hbound) hlist]
    rfl
  | typescript =>
    rw [Impl.verify, Ts.minted_accepted libs.node libs.sha256 key sender receiver hsender token _ _
      halg hkid _ _ hminted harrives now leeway hwin file jwks (exists_of_toOption_bind hbound) hlist]
    rfl
  | go =>
    rw [Impl.verify, Go.minted_accepted libs.go hgo libs.sha256 key sender receiver hsender hreceiver
      token _ _ halg hkid _ _ hminted harrives now leeway hwin file jwks
      (exists_of_toOption_bind hbound) hlist]
    rfl

section

variable {supply : ℕ → Point} {s : Disk} {libs : Libs} {self : Identity}

/-- An identity mints with the key in its file. -/
theorem Impl.identityToken_of_key (hplain : PlainPath self.keyFile) {key : Point}
    (hkey : s.tree.get self.keyFile = some (.file (.key key))) {time : ℚ} {receiver : SpiffeId}
    (hreceiver : Go.parseSpiffeID receiver.toString = .ok receiver) {ttl : ℤ} (minter : Impl) :
    minter.identityToken supply s libs self time receiver.toString ttl =
      minter.token libs self.id key time receiver.toString ttl := by
  cases minter with
  | python =>
    have hsource : (Py.privateKey self).Returns (Disk.semantics supply) s key s :=
      (read_leadsTo hplain hkey _).returns rfl
    have hparse : Py.parse receiver.toString = .ok receiver := (py_parse_eq _).trans hreceiver
    have h : (Py.identityToken libs.py libs.sha256 self time receiver.toString ttl).LeadsTo
        (Disk.semantics supply) s
        (.lift (Py.token libs.py libs.sha256 self.id key time receiver.toString ttl)) s :=
      (Prog.leadsTo_lift_bind _ s (mapError_eq_ok.mpr hparse)).trans (Prog.leadsTo_bind hsource)
    exact congrArg (fun r => r.1.toOption) h.run
  | typescript =>
    have hsource : (Ts.privateKey self).Returns (Disk.semantics supply) s key s :=
      (read_leadsTo hplain hkey _).returns rfl
    have hparse : Ts.parse receiver.toString = .ok receiver := (ts_parse_eq _).trans hreceiver
    have h : (Ts.identityToken libs.node libs.sha256 self time receiver.toString ttl).LeadsTo
        (Disk.semantics supply) s
        (.lift (Ts.token libs.node libs.sha256 self.id key time receiver.toString ttl)) s :=
      (Prog.leadsTo_lift_bind _ s (mapError_eq_ok.mpr hparse)).trans (Prog.leadsTo_bind hsource)
    exact congrArg (fun r => r.1.toOption) h.run
  | go =>
    have hsource : (Go.privateKey self).Returns (Disk.semantics supply) s key s :=
      (read_leadsTo hplain hkey _).returns rfl
    have h : (Go.identityToken libs.go libs.table libs.sha256 self time receiver.toString ttl).LeadsTo
        (Disk.semantics supply) s
        (.lift (Go.token libs.go libs.table libs.sha256 self.id key time receiver.toString ttl)) s :=
      (Prog.leadsTo_lift_bind _ s (mapError_eq_ok.mpr hreceiver)).trans (Prog.leadsTo_bind hsource)
    exact congrArg (fun r => r.1.toOption) h.run

/-- An identity verifies against the document in its bundle file. -/
theorem Impl.identityVerify_of_doc (hplain : PlainPath self.bundleFile) {d : Json}
    (hdoc : s.tree.get self.bundleFile = some (.file (.json d))) (now : ℚ) (token : String)
    (audience : Option String) (leeway : ℚ) (verifier : Impl) :
    verifier.identityVerify supply s libs self now token audience leeway =
      verifier.verifyFor libs self.id (.doc d) now token audience leeway := by
  have hread : s.tree.read self.bundleFile = .ok (.json d) :=
    (Volume.read_plain_eq_ok hplain _ _).mpr hdoc
  cases verifier with
  | python =>
    change (Py.verify libs.py self.id (bundleFileWith .notJson (s.tree.read self.bundleFile)) now token
      audience leeway).toOption = _
    rw [hread]
    rfl
  | typescript =>
    change (Ts.verify libs.node self.id (bundleFileWith .missing (s.tree.read self.bundleFile)) now token
      audience leeway).toOption = _
    rw [hread]
    rfl
  | go =>
    change (Go.verify libs.go self.id (bundleFileWith .missing (s.tree.read self.bundleFile)) now token
      (audience.getD "") leeway).toOption = _
    rw [hread]
    rfl

end

theorem Impl.verifyFor_none (libs : Libs) (own : SpiffeId) (file : BundleFile) (now : ℚ)
    (token : String) (leeway : ℚ) (verifier : Impl) :
    verifier.verifyFor libs own file now token none leeway =
      verifier.verify libs own file now token leeway := by
  cases verifier <;> rfl

namespace Sample

def ownPayloadText : String :=
  "eyJzdWIiOiJzcGlmZmU6Ly9hLmIveCIsImF1ZCI6InNwaWZmZTovL2EuYi94IiwiaWF0IjowLCJleHAiOjYwfQ"

def ownClaims : Members :=
  [("sub", .str "spiffe://a.b/x"), ("aud", .str "spiffe://a.b/x"), ("iat", .int 0),
    ("exp", .int 60)]

def ownSegment (text : String) : Option Json :=
  if text = mintedHeaderText then some (.obj mintedHeader)
  else if text = ownPayloadText then some (.obj ownClaims) else none

def ownToken : String := mintedHeaderText ++ "." ++ ownPayloadText ++ ".c2ln"

def isOwn (input signature : String) : Bool :=
  input = signingInput mintedHeaderText ownPayloadText && signature = "c2ln"

/-- Libraries that write and read this one token. -/
def ownLibs : Libs where
  py := Py.PyJwt.reference Unit ownSegment (fun _ => .ok ()) (fun _ => true)
    (fun _ input signature => isOwn input signature) (fun _ _ _ _ => ownToken)
  node :=
    { Key := Unit
      parseSegment := ownSegment
      createPublicKey := fun _ _ _ _ => some ()
      cryptoVerify := fun _ input signature => some (isOwn input signature)
      writeSegment := fun _ => ownPayloadText
      sign := fun _ _ => "c2ln" }
  go := Go.GoJwt.reference ownSegment (fun _ input signature => isOwn input signature)
    (fun _ _ _ => ownToken)
  table := fun _ => false
  sha256 := baseDigest

theorem own_conveys (self peer : SpiffeId) (key : Point) (hself : self.toString = "spiffe://a.b/x")
    (hpeer : peer.toString = "spiffe://a.b/x") (hkey : Content.key basePoint = .key key) :
    Impl.python.Conveys ownLibs .typescript self peer key 0 60 := by
  intro token htoken
  cases hkey
  have hclaims : Impl.python.claims self peer 0 60 = ownClaims := by
    simp [Impl.claims, Py.tokenClaims, ownClaims, Py.int, hself, hpeer]
  have htext : token = ownToken := by
    have hparse : Go.parseSpiffeID "spiffe://a.b/x" = .ok ⟨"a.b", "/x"⟩ := rfl
    simp only [Impl.token, Py.token, py_parse_eq, hpeer, hparse, py_keySourceKid, Except.toOption,
      Option.some.injEq] at htoken
    exact htoken.symm
  rw [hclaims, htext]
  refine ⟨mintedHeaderText, ownPayloadText, "c2ln", mintedHeader, by decide +kernel,
    by simp [Impl.segment, ownLibs, ownSegment], fun name v h => ?_,
    by simp [Impl.segment, ownLibs, ownSegment, ownPayloadText, mintedHeaderText],
    fun j hj => ⟨(), ?_, by decide +kernel⟩⟩
  · rw [show basePoint.kid ownLibs.sha256 = baseKid from baseKid_eq] at h
    exact h
  · simp [Ts.loadKey, Json.jsProp?, hj.kty, ownLibs]

theorem noSlash_root : NoSlash root := (by decide : ∀ name ∈ root, '/' ∉ name.toList)

end Sample

end Spiffile
