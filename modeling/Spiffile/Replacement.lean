import Spiffile.Completion
import Spiffile.Rotation
import Spiffile.Consistency

/-!
# Replacing the bundle

The profile asks producers to replace the bundle by writing beside it and
renaming. The three implementations write the file in place: whenever a call
comes to that write, it passes through a bundle that reads as no bundle at all.
-/

namespace Spiffile

open FileTree

/-- Every implementation reads the same from the two files. -/
structure SameReading (f g : BundleFile) : Prop where
  python : Py.readBundle f = Py.readBundle g
  typescript : Ts.sourceGet f = Ts.sourceGet g
  go : Go.readBundle f = Go.readBundle g

section

variable (rt : Runtime) (supply : ℕ → Point) (root : PathName)

/-- Whatever state the call visits, the bundle reads as it did before the call
or as it does behind it. -/
def Impl.AllOrNothing (call : Call) (s : Disk) (impl : Impl) : Prop :=
  ∀ t, impl.Visits rt supply root call s t →
    SameReading (bundleFile root t) (bundleFile root s) ∨
      SameReading (bundleFile root t) (bundleFile root (impl.outcome rt supply root call s).2)

/-- The root lets the call come to its write of the bundle. -/
def WritesBundle (s : Disk) : Call → Prop
  | .initRoot _ =>
    s.tree.get (bundlePath root) = none ∧ s.tree.Passable (root ++ [servicesDirname])
  | .addService name =>
    ∃ td, trustDomainAt root s = some td ∧ IsServiceName td name ∧
      s.tree.get (keyPath root name) = none ∧ s.tree.get (idPath root name) ≠ some .dir ∧
      s.tree.Passable (serviceDir root name)
  | .rotateService name _ => ∃ td, Registered root s td name
  | .removeService _ => ∃ td, trustDomainAt root s = some td

end

/-! ### Up to the write -/

/-- The bundle file is the same. -/
def SameBundle (root : PathName) (s t : Disk) : Prop :=
  t.tree.get (bundlePath root) = s.tree.get (bundlePath root)

section

variable {ε α : Type} {supply : ℕ → Point} {root : PathName} {raised : Errno → ε}

theorem visits_exec {c : Cmd} {s t : Disk} :
    (Prog.exec c : Prog Cmd Ans ε (Ans c)).Visits (Disk.semantics supply) s t ↔
      t = s ∨ Disk.Torn c s t ∨ t = (Disk.step supply c s).2 := Iff.rfl

theorem check_visits {β : Type} {r : Except Errno β} {f : β → Prog Cmd Ans ε α} {s t : Disk}
    (h : (check raised r >>= f).Visits (Disk.semantics supply) s t) :
    t = s ∨ ∃ b, r = .ok b ∧ (f b).Visits (Disk.semantics supply) s t := by
  rcases (Prog.visits_bind _ _ _ _).mp h with h | ⟨b, u, hrun, h⟩
  · exact Or.inl h
  · obtain ⟨hr, rfl⟩ := Prog.returns_lift.mp hrun
    exact Or.inr ⟨b, mapError_eq_ok.mp hr, h⟩

theorem lift_visits {β : Type} {r : Except ε β} {f : β → Prog Cmd Ans ε α} {s t : Disk}
    (h : (Prog.lift r >>= f).Visits (Disk.semantics supply) s t) :
    t = s ∨ ∃ b, r = .ok b ∧ (f b).Visits (Disk.semantics supply) s t := by
  rcases (Prog.visits_bind _ _ _ _).mp h with h | ⟨b, u, hrun, h⟩
  · exact Or.inl h
  · obtain ⟨hr, rfl⟩ := Prog.returns_lift.mp hrun
    exact Or.inr ⟨b, hr, h⟩

theorem present_visits {p : PathName} (hp : PlainPath p) {f : Bool → Prog Cmd Ans ε α} {s t : Disk}
    (h : (present p >>= f).Visits (Disk.semantics supply) s t) :
    t = s ∨ (f (s.tree.get p).isSome).Visits (Disk.semantics supply) s t := by
  rcases (Prog.visits_bind _ _ _ _).mp h with h | ⟨there, u, hrun, h⟩
  · rcases visits_exec.mp h with h | h | h
    · exact Or.inl h
    · exact h.elim
    · exact Or.inl h
  · obtain ⟨hthere, hu⟩ := Prog.returns_exec.mp hrun
    have hsome : there = (s.tree.get p).isSome := hthere.symm.trans (Volume.present_plain hp s.tree)
    rw [hsome, ← hu] at h
    exact Or.inr h

theorem generateKey_visits {f : Point → Prog Cmd Ans ε α} {s t : Disk}
    (h : (generateKey >>= f).Visits (Disk.semantics supply) s t) :
    t.tree = s.tree ∨ (f (supply s.generated)).Visits (Disk.semantics supply)
      { s with generated := s.generated + 1 } t := by
  rcases (Prog.visits_bind _ _ _ _).mp h with h | ⟨key, u, hrun, h⟩
  · rcases visits_exec.mp h with rfl | h | rfl
    · exact Or.inl rfl
    · exact h.elim
    · exact Or.inl rfl
  · obtain ⟨hkey, rfl⟩ := Prog.returns_exec.mp hrun
    have hkey' : key = supply s.generated := hkey.symm
    exact Or.inr (hkey' ▸ h)

theorem mkdirs_visits {p : PathName} (hp : PlainPath p) {f : Unit → Prog Cmd Ans ε α} {s t : Disk}
    (h : (mkdirs p >>= fun done => check raised done >>= f).Visits (Disk.semantics supply) s t) :
    Volume.Grown s.tree t.tree p ∨
      s.tree.Passable p ∧
        (f ()).Visits (Disk.semantics supply) { s with tree := (s.tree.mkdirs p).2 } t := by
  have hgrown := (Volume.mkdirs_spec hp s.tree).1
  rcases (Prog.visits_bind _ _ _ _).mp h with h | ⟨done, u, hrun, h⟩
  · rcases visits_exec.mp h with rfl | h | rfl
    · exact Or.inl fun q => Or.inl rfl
    · exact Or.inl h.2
    · exact Or.inl hgrown
  · obtain ⟨hdone, hu⟩ := Prog.returns_exec.mp hrun
    have hu' : u = { s with tree := (s.tree.mkdirs p).2 } := hu.symm
    subst hu'
    rcases check_visits h with rfl | ⟨b, hok, h⟩
    · exact Or.inl hgrown
    · have hmade : (s.tree.mkdirs p).1 = .ok () := hdone.trans hok
      exact Or.inr ⟨(Volume.mkdirs_ok_iff hp s.tree).mp hmade, h⟩

/-- Off its path a write that is not done yet has changed nothing. -/
theorem write_visits {p : PathName} (hp : PlainPath p) {c : Content} {f : Unit → Prog Cmd Ans ε α}
    {s t : Disk}
    (h : (write p c >>= fun done => check raised done >>= f).Visits (Disk.semantics supply) s t) :
    (∀ q, q ≠ p → t.tree.get q = s.tree.get q) ∨
      s.tree.Puttable p ∧
        (f ()).Visits (Disk.semantics supply) { s with tree := s.tree.put p (.file c) } t := by
  have hcases := s.tree.write_plain_cases hp c
  have hafter : ∀ q, q ≠ p → (s.tree.write p c).2.get q = s.tree.get q := by
    intro q hq
    rcases hcases with ⟨e, he⟩ | ⟨hput, he⟩
    · rw [he]
    · rw [he, Volume.get_put hput, if_neg hq]
  rcases (Prog.visits_bind _ _ _ _).mp h with h | ⟨done, u, hrun, h⟩
  · rcases visits_exec.mp h with rfl | ⟨q, text, hq, hput, rfl⟩ | rfl
    · exact Or.inl fun _ _ => rfl
    · refine Or.inl fun r hr => ?_
      cases Volume.resolve_plain_eq_ok hp s.tree hq
      rw [Volume.get_put hput, if_neg hr]
    · exact Or.inl hafter
  · obtain ⟨hdone, hu⟩ := Prog.returns_exec.mp hrun
    have hu' : u = { s with tree := (s.tree.write p c).2 } := hu.symm
    subst hu'
    rcases check_visits h with rfl | ⟨b, hok, h⟩
    · exact Or.inl hafter
    · have hwritten : (s.tree.write p c).1 = .ok () := hdone.trans hok
      rcases hcases with ⟨e, he⟩ | ⟨hput, he⟩
      · rw [he] at hwritten
        cases hwritten
      · rw [he] at h
        exact Or.inr ⟨hput, h⟩

theorem writeKey_visits {τ κ : Type} {kit : Kit ε τ κ} {p : PathName} (hp : PlainPath p) {key : Point}
    {f : Unit → Prog Cmd Ans ε α} {s t : Disk}
    (h : (writeKeyWith kit p key >>= f).Visits (Disk.semantics supply) s t) :
    (∀ q, q ≠ p → t.tree.get q = s.tree.get q) ∨
      s.tree.Puttable p ∧
        (f ()).Visits (Disk.semantics supply) { s with tree := s.tree.put p (.file (.key key)) } t := by
  rcases (Prog.visits_bind _ _ _ _).mp h with h | ⟨_, u, hrun, h⟩
  · rcases write_visits hp h with hsame | ⟨hput, h⟩
    · exact Or.inl hsame
    · refine Or.inl fun q hq => ?_
      have hstay : t.tree = s.tree.put p (.file (.key key)) := by
        split_ifs at h
        · rcases (Prog.visits_bind _ _ _ _).mp h with h | ⟨done, u, hrun, h⟩
          · rcases visits_exec.mp h with rfl | h | rfl
            · rfl
            · exact h.elim
            · rfl
          · obtain ⟨-, rfl⟩ := Prog.returns_exec.mp hrun
            cases h
            rfl
        · cases h
          rfl
      rw [hstay, Volume.get_put hput, if_neg hq]
  · obtain ⟨hput, rfl⟩ := writeKey_returns hp hrun
    exact Or.inr ⟨hput, h⟩

end

section

variable {ε τ κ : Type} {kit : Kit ε τ κ} {sha256 : Hash} {supply : ℕ → Point} {root : PathName}
  (hroot : PlainPath root) (lawful : kit.Lawful sha256) {s t : Disk}

include hroot lawful

theorem readBundle_visits {α : Type} {f : Bundle τ → Prog Cmd Ans ε α}
    (h : (readBundleWith kit root >>= f).Visits (Disk.semantics supply) s t) :
    t = s ∨ ∃ b, Reads kit root s b ∧ (f b).Visits (Disk.semantics supply) s t := by
  rcases (Prog.visits_bind _ _ _ _).mp h with h | ⟨b, u, hrun, h⟩
  · rcases (Prog.visits_bind _ _ _ _).mp h with h | ⟨answer, u, hrun, h⟩
    · rcases visits_exec.mp h with h | h | h
      · exact Or.inl h
      · exact h.elim
      · exact Or.inl h
    · obtain ⟨-, rfl⟩ := Prog.returns_exec.mp hrun
      exact Or.inl h
  · obtain ⟨hreads, rfl⟩ := readBundle_returns hroot lawful hrun
    exact Or.inr ⟨b, hreads, h⟩

theorem initRoot_visits {td : String}
    (h : (initRootWith kit root td).Visits (Disk.semantics supply) s t) :
    SameBundle root s t ∨ WritesBundle root s (.initRoot td) := by
  unfold initRootWith at h
  rw [join_bundle lawful hroot, join_services lawful hroot] at h
  rcases present_visits (plainPath_bundlePath hroot) h with rfl | h
  · exact Or.inl rfl
  cases hget : s.tree.get (bundlePath root) with
  | some n =>
    rw [hget] at h
    exact Or.inl (congrArg (fun u : Disk => u.tree.get (bundlePath root)) h)
  | none =>
    rw [hget] at h
    have hplain : PlainPath (root ++ [servicesDirname]) :=
      hroot.append (plainPath_singleton plain_servicesDirname)
    rcases mkdirs_visits hplain h with hgrown | ⟨hpass, -⟩
    · exact Or.inl (hgrown.get_off_path (bundlePath_off_services root []))
    · exact Or.inr ⟨hget, hpass⟩

theorem provision_visits {b : Bundle τ} {id : SpiffeId} {name : String}
    (hname : PlainPath (splitSlash name))
    (h : (provisionWith kit root b id (serviceDir root name)).Visits (Disk.semantics supply) s t) :
    SameBundle root s t ∨
      s.tree.Passable (serviceDir root name) ∧ s.tree.get (idPath root name) ≠ some .dir := by
  unfold provisionWith at h
  rw [join_key lawful hroot hname, join_id lawful hroot hname] at h
  have hdirPlain := plainPath_serviceDir hroot hname
  have hgrown := (Volume.mkdirs_spec hdirPlain s.tree).1
  have hsame : (s.tree.mkdirs (serviceDir root name)).2.get (bundlePath root) =
      s.tree.get (bundlePath root) :=
    Volume.Grown.get_off_path hgrown (bundlePath_off_services root _)
  rcases mkdirs_visits hdirPlain h with hgrown | ⟨hpass, h⟩
  · exact Or.inl (hgrown.get_off_path (bundlePath_off_services root _))
  rcases generateKey_visits h with htree | h
  · rw [SameBundle, htree]
    exact Or.inl hsame
  rcases writeKey_visits (plainPath_keyPath hroot hname) h with hstay | ⟨hputKey, h⟩
  · exact Or.inl ((hstay _ (keyPath_ne_bundlePath root name).symm).trans hsame)
  dsimp only at hputKey
  have hsame' : ∀ c : Content, ((s.tree.mkdirs (serviceDir root name)).2.put (keyPath root name)
      (.file c)).get (bundlePath root) = s.tree.get (bundlePath root) := by
    intro c
    rw [Volume.get_put hputKey, if_neg (keyPath_ne_bundlePath root name).symm, hsame]
  rcases write_visits (plainPath_idPath hroot hname) h with hstay | ⟨hputId, -⟩
  · exact Or.inl ((hstay _ (idPath_ne_bundlePath root name).symm).trans (hsame' _))
  refine Or.inr ⟨hpass, fun hdir => hputId.2.2 ((Volume.isDir_iff _ _).mpr ?_)⟩
  rw [Volume.get_put hputKey, if_neg (idPath_ne_keyPath root name name)]
  exact Volume.Grown.of_some hgrown hdir

theorem addService_visits {R : String → ℕ → Prop} {c₀ : ℕ} (hs : Sound sha256 supply root R c₀ s)
    {name : String} (h : (addServiceWith kit root name).Visits (Disk.semantics supply) s t) :
    SameBundle root s t ∨ WritesBundle root s (.addService name) := by
  unfold addServiceWith at h
  rcases readBundle_visits hroot lawful h with rfl | ⟨b, hreads, h⟩
  · exact Or.inl rfl
  obtain ⟨td, ids, hget, hb, -⟩ := hreads.readFrom lawful hs
  rcases lift_visits h with rfl | ⟨id, hid, h⟩
  · exact Or.inl rfl
  rw [lawful.parseId_ok, hb.text] at hid
  have hname : PlainPath (splitSlash name) := plain_of_isServiceName ⟨id, hid⟩
  dsimp only at h
  rw [join_service lawful hroot hname, join_key lawful hroot hname] at h
  rcases present_visits (plainPath_keyPath hroot hname) h with rfl | h
  · exact Or.inl rfl
  cases hkey : s.tree.get (keyPath root name) with
  | some n =>
    rw [hkey] at h
    exact Or.inl (congrArg (fun u : Disk => u.tree.get (bundlePath root)) h)
  | none =>
    rw [hkey] at h
    rcases provision_visits hroot lawful hname h with hsame | ⟨hpass, hdir⟩
    · exact Or.inl hsame
    · exact Or.inr ⟨td, trustDomainAt_document hroot hget, ⟨id, hid⟩, hkey, hdir, hpass⟩

theorem rotateService_visits {R : String → ℕ → Prop} {c₀ : ℕ} (hs : Sound sha256 supply root R c₀ s)
    {name : String} {keepOld : Bool}
    (h : (rotateServiceWith kit root name keepOld).Visits (Disk.semantics supply) s t) :
    SameBundle root s t ∨ WritesBundle root s (.rotateService name keepOld) := by
  unfold rotateServiceWith at h
  rcases readBundle_visits hroot lawful h with rfl | ⟨b, hreads, h⟩
  · exact Or.inl rfl
  obtain ⟨td, ids, hget, hb, -⟩ := hreads.readFrom lawful hs
  rcases lift_visits h with rfl | ⟨id, hid, h⟩
  · exact Or.inl rfl
  rw [lawful.parseId_ok, hb.text] at hid
  have hname : PlainPath (splitSlash name) := plain_of_isServiceName ⟨id, hid⟩
  dsimp only at h
  rw [join_service_key lawful hroot hname] at h
  rcases present_visits (plainPath_keyPath hroot hname) h with rfl | h
  · exact Or.inl rfl
  cases hkey : s.tree.get (keyPath root name) with
  | none =>
    rw [hkey] at h
    exact Or.inl (congrArg (fun u : Disk => u.tree.get (bundlePath root)) h)
  | some n =>
    rw [hkey] at h
    unfold renewWith at h
    rcases generateKey_visits h with htree | h
    · rw [SameBundle, htree]
      exact Or.inl rfl
    rcases lift_visits h with rfl | ⟨k, -, h⟩
    · exact Or.inl rfl
    rcases lift_visits h with rfl | ⟨others, -, h⟩
    · exact Or.inl rfl
    rcases writeKey_visits (plainPath_keyPath hroot hname) h with hstay | ⟨hput, -⟩
    · exact Or.inl (hstay _ (keyPath_ne_bundlePath root name).symm)
    refine Or.inr ⟨td, trustDomainAt_document hroot hget, ⟨id, hid⟩, ?_⟩
    cases n with
    | file c => exact ⟨c, hkey⟩
    | dir => exact absurd ((s.tree.isDir_iff _).mpr hkey) hput.2.2

theorem removeService_visits {R : String → ℕ → Prop} {c₀ : ℕ} (hs : Sound sha256 supply root R c₀ s)
    {removeFiles : PathName → Prog Cmd Ans ε Unit} {name : String}
    (h : (removeServiceWith kit removeFiles root name).Visits (Disk.semantics supply) s t) :
    SameBundle root s t ∨ WritesBundle root s (.removeService name) := by
  unfold removeServiceWith at h
  rcases readBundle_visits hroot lawful h with rfl | ⟨b, hreads, -⟩
  · exact Or.inl rfl
  · obtain ⟨td, ids, hget, -, -⟩ := hreads.readFrom lawful hs
    exact Or.inr ⟨td, trustDomainAt_document hroot hget⟩

omit hroot lawful in
theorem discard_visits {α : Type} {p : Prog Cmd Ans ε α}
    (h : (discard p).Visits (Disk.semantics supply) s t) : p.Visits (Disk.semantics supply) s t := by
  rcases (Prog.visits_bind _ _ _ _).mp h with h | ⟨a, u, hrun, h⟩
  · exact h
  · cases h
    exact Prog.Returns.visits hrun

/-- Before its write a call leaves the bundle alone. -/
theorem performWith_visits {R : String → ℕ → Prop} {c₀ : ℕ} (hs : Sound sha256 supply root R c₀ s)
    {removeFiles : PathName → Prog Cmd Ans ε Unit} {call : Call}
    (h : (performWith kit removeFiles root call).Visits (Disk.semantics supply) s t) :
    SameBundle root s t ∨ WritesBundle root s call := by
  cases call with
  | initRoot td => exact initRoot_visits hroot lawful h
  | addService name => exact addService_visits hroot lawful hs (discard_visits h)
  | rotateService name keepOld => exact rotateService_visits hroot lawful hs (discard_visits h)
  | removeService name => exact removeService_visits hroot lawful hs h

end

/-! ### In the middle of the write -/

/-- No file at all, or a written document. -/
def Whole (f : BundleFile) : Prop :=
  f = .missing ∨ ∃ td ids, f = .doc (document (.str td) ids)

/-- A file that is cut off reads like neither. -/
theorem Whole.not_sameReading {f : BundleFile} (h : Whole f) : ¬ SameReading .notJson f := by
  intro hsame
  have hread := hsame.python
  rcases h with rfl | ⟨td, ids, rfl⟩
  · cases hread
  · obtain ⟨b, hb, -⟩ := py_fromDict_document td ids
    simp only [Py.readBundle, hb] at hread
    cases hread

section

variable {root : PathName} (hroot : PlainPath root)

include hroot

theorem bundleFile_eq (s : Disk) :
    bundleFile root s =
      match s.tree.get (bundlePath root) with
      | some (.file (.json d)) => .doc d
      | some _ => .notJson
      | none => .missing := by
  have hplain := plainPath_bundlePath hroot
  unfold bundleFile Volume.read
  cases hget : s.tree.get (bundlePath root) with
  | none => rcases Volume.stat_plain_none hplain s.tree hget with he | he <;> rw [he] <;> rfl
  | some n =>
    rw [Volume.stat_plain_some hplain s.tree hget]
    cases n with
    | dir => rfl
    | file c => cases c <;> rfl

theorem SameBundle.sameReading {s t : Disk} (h : SameBundle root s t) :
    SameReading (bundleFile root t) (bundleFile root s) := by
  have hfile : bundleFile root t = bundleFile root s := by
    rw [bundleFile_eq hroot, bundleFile_eq hroot, show _ = _ from h]
  rw [hfile]
  exact ⟨rfl, rfl, rfl⟩

theorem bundleFile_withBundle {u : Disk} (hput : u.tree.Puttable (bundlePath root)) (c : Content) :
    bundleFile root (u.withBundle root c) =
      match c with
      | .json d => .doc d
      | _ => .notJson := by
  have hget : (u.withBundle root c).tree.get (bundlePath root) = some (.file c) := by
    rw [Disk.withBundle, Volume.get_put hput, if_pos rfl]
  rw [bundleFile_eq hroot, hget]
  cases c <;> rfl

theorem WritesBundle.whole {sha256 : Hash} {supply : ℕ → Point} {R : String → ℕ → Prop} {c₀ : ℕ}
    {s : Disk} (hs : Sound sha256 supply root R c₀ s) {call : Call} (h : WritesBundle root s call) :
    Whole (bundleFile root s) := by
  have hdoc : ∀ td, trustDomainAt root s = some td → Whole (bundleFile root s) := by
    intro td htd
    obtain ⟨ids, hget, -⟩ := doc_of_trustDomainAt hroot hs htd
    exact Or.inr ⟨td, ids, bundleFile_of_get hroot hget⟩
  cases call with
  | initRoot td =>
    rw [bundleFile_eq hroot, h.1]
    exact Or.inl rfl
  | addService name =>
    obtain ⟨td, htd, -⟩ := h
    exact hdoc td htd
  | rotateService name keepOld =>
    obtain ⟨td, hreg⟩ := h
    exact hdoc td hreg.domain
  | removeService name =>
    obtain ⟨td, htd⟩ := h
    exact hdoc td htd

section

variable {ε τ κ : Type} {kit : Kit ε τ κ} {sha256 : Hash} {supply : ℕ → Point}
  (lawful : kit.Lawful sha256) {s : Disk} {R : String → ℕ → Prop} {c₀ : ℕ}
  (hs : Sound sha256 supply root R c₀ s)

include lawful hs

/-- The calls that write the bundle last. -/
theorem performWith_endsInWrite (removeFiles : PathName → Prog Cmd Ans ε Unit) {call : Call}
    (h : WritesBundle root s call) (hcall : ∀ name, call ≠ .removeService name) :
    EndsInWrite supply root (performWith kit removeFiles root call) s := by
  cases call with
  | initRoot td => exact initRoot_endsInWrite hroot lawful h.1 h.2 td
  | addService name =>
    obtain ⟨td, htd, hname, hkey, hid, hpass⟩ := h
    obtain ⟨ids, hget, -⟩ := doc_of_trustDomainAt hroot hs htd
    exact (addService_endsInWrite hroot lawful hget hname hkey hid hpass).bind_pure fun _ => ()
  | rotateService name keepOld =>
    obtain ⟨td, hreg⟩ := h
    obtain ⟨ids, hget, hl⟩ := doc_of_trustDomainAt hroot hs hreg.domain
    obtain ⟨c, hkey⟩ := hreg.key
    refine (rotateService_endsInWrite hroot lawful hget hreg.name_ok hkey ?_ keepOld).bind_pure
      fun _ => ()
    intro keys hkeys
    obtain ⟨is, his, -⟩ := hl _ keys hkeys
    refine ⟨is.map supply, ?_⟩
    rw [his, List.map_map]
    rfl
  | removeService name => exact absurd rfl (hcall name)

/-- A removal writes the bundle first. -/
theorem removeService_torn {removeFiles : PathName → Prog Cmd Ans ε Unit} {td : String}
    (htd : trustDomainAt root s = some td) (name : String) :
    s.tree.Puttable (bundlePath root) ∧ ∀ text,
      (removeServiceWith kit removeFiles root name).Visits (Disk.semantics supply) s
        (s.withBundle root (.text text)) := by
  obtain ⟨ids, hget, -⟩ := doc_of_trustDomainAt hroot hs htd
  obtain ⟨b, hb, hread⟩ := readBundle_completes hroot lawful supply hget
  have hput := Volume.puttable_of_file hget
  refine ⟨hput, fun text => ?_⟩
  unfold removeServiceWith
  rw [join_bundle lawful hroot]
  refine Prog.visits_bind_right hread ?_
  exact (Prog.visits_bind _ _ _ _).mpr (Or.inl (writeBundle_torn hroot hput text))

end

variable {rt : Runtime} {supply : ℕ → Point} {s : Disk} {R : String → ℕ → Prop} {c₀ : ℕ}
  (hs : Sound rt.sha256 supply root R c₀ s)

include hs

/-- Who does not only remove returns behind the write. -/
theorem Impl.returns_behind_write {call : Call} (h : WritesBundle root s call)
    (hcall : ∀ name, call ≠ .removeService name) (impl : Impl) :
    ∃ (u : Disk) (td : String) (ids : Identities), u.tree.Puttable (bundlePath root) ∧
      (∀ text, impl.Visits rt supply root call s (u.withBundle root (.text text))) ∧
      impl.Returns rt supply root call s (u.withBundle root (.json (document (.str td) ids))) := by
  cases impl with
  | python =>
    obtain ⟨u, td, ids, ⟨⟩, hends⟩ := performWith_endsInWrite hroot (Py.kit_lawful rt) hs
      Py.removeFiles h hcall
    rw [← Py.perform_eq] at hends
    exact ⟨u, td, ids, hends⟩
  | typescript =>
    obtain ⟨u, td, ids, ⟨⟩, hends⟩ := performWith_endsInWrite hroot (Ts.kit_lawful rt) hs
      (Ts.removeFiles rt) h hcall
    rw [← Ts.perform_eq] at hends
    exact ⟨u, td, ids, hends⟩
  | go =>
    obtain ⟨u, td, ids, ⟨⟩, hends⟩ := performWith_endsInWrite hroot (Go.kit_lawful rt) hs
      Go.removeFiles h hcall
    rw [← Go.perform_eq] at hends
    exact ⟨u, td, ids, hends⟩

/-- Who does not come to the write leaves the bundle alone. -/
theorem Impl.sameBundle_or_writes {call : Call} {impl : Impl} {t : Disk}
    (hvisits : impl.Visits rt supply root call s t) :
    SameBundle root s t ∨ WritesBundle root s call := by
  cases impl with
  | python =>
    rw [Impl.Visits, Py.perform_eq] at hvisits
    exact performWith_visits hroot (Py.kit_lawful rt) hs hvisits
  | typescript =>
    rw [Impl.Visits, Ts.perform_eq] at hvisits
    exact performWith_visits hroot (Ts.kit_lawful rt) hs hvisits
  | go =>
    rw [Impl.Visits, Go.perform_eq] at hvisits
    exact performWith_visits hroot (Go.kit_lawful rt) hs hvisits

/-- Whoever comes to the write passes through a file that is cut off, on the way
to a whole one. -/
theorem Impl.tears {call : Call} (h : WritesBundle root s call) (impl : Impl) :
    (∃ u : Disk, u.tree.Puttable (bundlePath root) ∧ ∀ text,
      impl.Visits rt supply root call s (u.withBundle root (.text text))) ∧
      Whole (bundleFile root (impl.outcome rt supply root call s).2) := by
  by_cases hcall : ∀ name, call ≠ .removeService name
  · obtain ⟨u, td, ids, hput, htorn, hret⟩ := impl.returns_behind_write hroot hs h hcall
    refine ⟨⟨u, hput, htorn⟩, Or.inr ⟨td, ids, ?_⟩⟩
    rw [hret.outcome, bundleFile_withBundle hroot hput]
  · obtain ⟨name, hname⟩ := not_forall_not.mp hcall
    subst hname
    obtain ⟨td, htd⟩ := h
    constructor
    · refine ⟨s, ?_⟩
      cases impl with
      | python => exact removeService_torn hroot (Py.kit_lawful rt) hs htd name
      | typescript => exact removeService_torn hroot (Ts.kit_lawful rt) hs htd name
      | go => exact removeService_torn hroot (Go.kit_lawful rt) hs htd name
    · obtain ⟨ids, hget, -⟩ := doc_of_trustDomainAt hroot hs htd
      obtain ⟨ok, t, hout, hend⟩ := impl.removeService_ending rt supply hroot hget name
      rw [hout, bundleFile_eq hroot]
      obtain ⟨ids', -, hleft⟩ := hend.left
      by_cases htakes : impl.Takes s.tree (impl.join root [servicesDirname, name]) (bundlePath root)
      · rw [hend.taken _ htakes]
        exact Or.inl rfl
      · rw [hleft _ htakes, if_pos rfl]
        exact Or.inr ⟨td, ids', rfl⟩

end

/-- On every root that calls can reach, the bundle is replaced as a whole
exactly if the call does not come to its write. -/
theorem all_or_nothing_iff (rt : Runtime) (supply : ℕ → Point) (root : PathName)
    (hroot : PlainPath root) (s₀ s : Disk) (hfresh : s₀.tree.get (bundlePath root) = none)
    (hrun : Run rt supply root s₀ s) (call : Call) (impl : Impl) :
    impl.AllOrNothing rt supply root call s ↔ ¬ WritesBundle root s call := by
  have hs := (Sound.fresh hfresh).run hroot (fun _ _ _ => trivial) hrun
  constructor
  · intro hall hwrites
    obtain ⟨⟨u, hput, htorn⟩, hwhole⟩ := impl.tears hroot hs hwrites
    have hcut : bundleFile root (u.withBundle root (.text "")) = .notJson :=
      bundleFile_withBundle hroot hput _
    have hsame := hall _ (htorn "")
    rw [hcut] at hsame
    rcases hsame with hbefore | hbehind
    · exact (hwrites.whole hroot hs).not_sameReading hbefore
    · exact hwhole.not_sameReading hbehind
  · intro hno t hvisits
    rcases Impl.sameBundle_or_writes hroot hs hvisits with hsame | hwrites
    · exact Or.inl (hsame.sameReading hroot)
    · exact absurd hwrites hno

/-! ### A second service -/

namespace Sample

theorem parse_y : Go.parseSpiffeID (serviceId "a.b" "y") = .ok ⟨"a.b", "/y"⟩ := rfl

theorem writes_second : WritesBundle root registered (.addService "y") := by
  have hplain : PlainPath (serviceDir root "y") :=
    plainPath_serviceDir plain_root (plain_of_isServiceName ⟨⟨"a.b", "/y"⟩, parse_y⟩)
  have hid : registered.tree.get (idPath root "y") = none := rfl
  refine ⟨"a.b", rfl, ⟨⟨"a.b", "/y"⟩, parse_y⟩, rfl, by simp [hid], ?_⟩
  exact (Volume.mkdirs_ok_iff hplain _).mp rfl

end Sample

theorem all_or_nothing_iff_sample :
    Impl.python.AllOrNothing Sample.runtime Sample.supply Sample.root (.addService "y")
        Sample.registered ↔ ¬ WritesBundle Sample.root Sample.registered (.addService "y") :=
  all_or_nothing_iff Sample.runtime Sample.supply Sample.root Sample.plain_root Sample.emptyDisk
    Sample.registered rfl Sample.run_registered (.addService "y") .python

/-- While `y` is added the bundle is cut off: it reads neither as before nor as
behind, and a crash there loses the binding of `x`. -/
theorem add_service_tears_bundle :
    Run Sample.runtime Sample.supply Sample.root Sample.emptyDisk Sample.registered ∧
      ∃ t, Impl.go.Visits Sample.runtime Sample.supply Sample.root (.addService "y")
          Sample.registered t ∧
        ¬ SameReading (bundleFile Sample.root t) (bundleFile Sample.root Sample.registered) ∧
        ¬ SameReading (bundleFile Sample.root t) (bundleFile Sample.root
          (Impl.go.outcome Sample.runtime Sample.supply Sample.root (.addService "y")
            Sample.registered).2) ∧
        ∀ reader : Impl, reader.bound (bundleFile Sample.root t) "spiffe://a.b/x" = none ∧
          (reader.bound (bundleFile Sample.root Sample.registered) "spiffe://a.b/x").isSome ∧
          (reader.bound (bundleFile Sample.root (Impl.go.outcome Sample.runtime Sample.supply
            Sample.root (.addService "y") Sample.registered).2) "spiffe://a.b/x").isSome := by
  have hs : Sound Sample.runtime.sha256 Sample.supply Sample.root (fun _ _ => True) 0
      Sample.registered :=
    (Sound.fresh rfl).run Sample.plain_root (fun _ _ _ => trivial)
      Sample.run_registered
  obtain ⟨⟨u, hput, htorn⟩, hwhole⟩ := Impl.go.tears Sample.plain_root hs Sample.writes_second
  have hcut : bundleFile Sample.root (u.withBundle Sample.root (.text "")) = .notJson :=
    bundleFile_withBundle Sample.plain_root hput _
  refine ⟨Sample.run_registered, u.withBundle Sample.root (.text ""), htorn "", ?_⟩
  rw [hcut]
  refine ⟨(Sample.writes_second.whole Sample.plain_root hs).not_sameReading,
    hwhole.not_sameReading, fun reader => ⟨?_, ?_, ?_⟩⟩
  · cases reader <;> rfl
  · cases reader <;> decide +kernel
  · cases reader <;> decide +kernel

end Spiffile
