import Spiffile.Completion
import Spiffile.KeyModes

/-!
# The window of a new key

`provision.py` and `provision.ts` write a key file and then set its mode. A call
that stops in between leaves a key that others can open, and nothing but a
rotation or a removal of the service changes this again: an `add` finds the file
and returns, and `provision.go` writes new keys into it as it is.
-/

namespace Spiffile

open FileTree

/-! ### An exposed key stays exposed -/

/-- A command that neither removes the key file of the service nor sets its mode. -/
structure Sparing (root : PathName) (name : String) (c : Cmd) : Prop where
  plain : ∀ p, c = .mkdirs p → PlainPath p
  chmod : ∀ p, c = .chmod p → PlainPath p ∧ p ≠ keyPath root name
  removed : ∀ p, c.removed = some p → PlainPath p ∧ ¬ p <+: keyPath root name

section

variable {supply : ℕ → Point} {create : Content → Mode} {root : PathName} {name : String}

/-- A file that is not removed stays a file. -/
theorem Sparing.file {c : Cmd} {u t : Disk} (hc : Sparing root name c)
    (ht : t = (Disk.step supply c u).2 ∨ Disk.Torn c u t) {x : Content}
    (hx : u.tree.get (keyPath root name) = some (.file x)) :
    ∃ y, t.tree.get (keyPath root name) = some (.file y) := by
  obtain htree | ⟨p, -, hgrown⟩ | ⟨p, y, q, z, -, -, hput, htree, -⟩ | ⟨p, q, n, hremoved, hstat, hshrunk⟩ :=
    tree_of_step hc.plain ht
  · exact ⟨x, by rw [htree, hx]⟩
  · exact ⟨x, hgrown.of_some hx⟩
  · rw [htree, Volume.get_put hput]
    split_ifs
    · exact ⟨z, rfl⟩
    · exact ⟨x, hx⟩
  · obtain ⟨hp, hoff⟩ := hc.removed p hremoved
    obtain ⟨rfl, -⟩ := Volume.stat_plain_eq_ok hp u.tree hstat
    rcases hshrunk (keyPath root name) with hsame | ⟨hbelow, -⟩
    · exact ⟨x, by rw [hsame, hx]⟩
    · exact absurd hbelow hoff

/-- What a sparing command keeps, also where it is cut short. -/
theorem Sparing.step {c : Cmd} {w v : Moded} (hc : Sparing root name c)
    (hv : v = ((Moded.semantics supply create).step c w).2 ∨
      (Moded.semantics supply create).Torn c w v) (h : Exposed root w name) : Exposed root v name := by
  have hdisk : v.disk = (Disk.step supply c w.disk).2 ∨ Disk.Torn c w.disk v.disk :=
    hv.imp (congrArg Moded.disk) And.left
  have hmode : v.mode = Moded.modesAfter create c w := hv.elim (congrArg Moded.mode) And.right
  obtain ⟨⟨x, hx⟩, hpublic⟩ := h
  refine ⟨hc.file hdisk hx, ?_⟩
  rw [hmode]
  rcases modesAfter_cases create c w (keyPath root name) with ⟨-, hm⟩ | ⟨m, hset, -⟩
  · rwa [hm]
  · rcases modeSet_cases hset with ⟨p, n, rfl, hstat, -⟩ | ⟨p, y, rfl, -, hnone, -⟩
    · obtain ⟨hp, hne⟩ := hc.chmod p rfl
      exact absurd (Volume.stat_plain_eq_ok hp _ hstat).1.symm hne
    · rw [hx] at hnone
      cases hnone

/-- The command neither removes a node nor sets a mode. -/
def Cmd.adds : Cmd → Bool
  | .present _ | .read _ | .write _ _ | .generateKey => true
  | _ => false

theorem sparing_of_adds {c : Cmd} (h : c.adds = true) : Sparing root name c where
  plain p hc := by rw [hc] at h; cases h
  chmod p hc := by rw [hc] at h; cases h
  removed p hc := by cases c <;> cases hc <;> cases h

theorem sparing_mkdirs {p : PathName} (hp : PlainPath p) : Sparing root name (.mkdirs p) where
  plain q hc := by cases hc; exact hp
  chmod q hc := by cases hc
  removed q hc := by cases hc

theorem sparing_chmod {p : PathName} (hp : PlainPath p) (hne : p ≠ keyPath root name) :
    Sparing root name (.chmod p) where
  plain q hc := by cases hc
  chmod q hc := by cases hc; exact ⟨hp, hne⟩
  removed q hc := by cases hc

theorem sparing_removed {c : Cmd} {p : PathName} (h : c.removed = some p) (hp : PlainPath p)
    (hoff : ¬ p <+: keyPath root name) : Sparing root name c where
  plain q hc := by rw [hc] at h; cases h
  chmod q hc := by rw [hc] at h; cases h
  removed q hc := by
    rw [h] at hc
    cases hc
    exact ⟨hp, hoff⟩

/-- A program all of whose commands are sparing. -/
def SparingProg (supply : ℕ → Point) (create : Content → Mode) (root : PathName) (name : String)
    {ε α : Type} (p : Prog Cmd Ans ε α) (w : Moded) : Prop :=
  p.Guarded (Moded.semantics supply create) (fun c _ => Sparing root name c) w fun _ _ => True

theorem Sparing.bind {ε α : Type} {c : Cmd} {w : Moded} (hc : Sparing root name c)
    {f : Ans c → Prog Cmd Ans ε α}
    (hf : SparingProg supply create root name (f ((Moded.semantics supply create).step c w).1)
      ((Moded.semantics supply create).step c w).2) :
    SparingProg supply create root name (Prog.exec c >>= f) w :=
  (Prog.guarded_exec_bind c f w _).mpr ⟨hc, hf⟩

theorem lift_sparing {ε α β : Type} {r : Except ε β} {f : β → Prog Cmd Ans ε α} {w : Moded}
    (hf : ∀ b, r = .ok b → SparingProg supply create root name (f b) w) :
    SparingProg supply create root name (Prog.lift r >>= f) w :=
  Prog.guarded_lift_bind (fun _ => trivial) hf

theorem then_sparing {ε α β : Type} {p : Prog Cmd Ans ε β} {f : β → Prog Cmd Ans ε α} {w : Moded}
    (hp : SparingProg supply create root name p w)
    (hf : ∀ b v, SparingProg supply create root name (f b) v) :
    SparingProg supply create root name (p >>= f) w :=
  Prog.guarded_then hp fun b v _ => hf b v

section

variable {ε τ κ α : Type} {kit : Kit ε τ κ} {w : Moded}

theorem writeBundle_sparing (p : PathName) (b : Bundle τ) :
    SparingProg supply create root name (writeBundleWith kit p b) w :=
  (sparing_of_adds (c := .write p (.json (kit.serialise b))) rfl).bind trivial

theorem readBundle_sparing {f : Bundle τ → Prog Cmd Ans ε α}
    (hf : ∀ b, SparingProg supply create root name (f b) w) :
    SparingProg supply create root name (readBundleWith kit root >>= f) w := by
  refine (sparing_of_adds (c := .read (kit.join root [bundleFilename])) rfl).bind ?_
  exact lift_sparing fun b _ => hf b

theorem writeKey_sparing {m : String} (hp : PlainPath (keyPath root m))
    (hne : kit.setsMode = true → m ≠ name) (key : Point) :
    SparingProg supply create root name (writeKeyWith kit (keyPath root m) key) w := by
  unfold writeKeyWith
  refine (sparing_of_adds (c := .write (keyPath root m) (.key key)) rfl).bind ?_
  refine lift_sparing fun _ _ => ?_
  split_ifs with hsets
  · exact (sparing_chmod hp fun h => hne hsets (keyPath_injective root h)).bind trivial
  · trivial

variable {sha256 : Hash} (lawful : kit.Lawful sha256) (hroot : PlainPath root)

include lawful hroot

theorem provision_sparing (b : Bundle τ) (id : SpiffeId) {m : String}
    (hm : PlainPath (splitSlash m)) (hne : m ≠ name) :
    SparingProg supply create root name (provisionWith kit root b id (serviceDir root m)) w := by
  unfold provisionWith
  rw [join_key lawful hroot hm]
  refine (sparing_mkdirs (plainPath_serviceDir hroot hm)).bind ?_
  refine lift_sparing fun _ _ => ?_
  refine (sparing_of_adds (c := .generateKey) rfl).bind ?_
  refine then_sparing (writeKey_sparing (plainPath_keyPath hroot hm) (fun _ => hne) _) fun _ _ => ?_
  refine (sparing_of_adds (c := .write _ _) rfl).bind ?_
  refine lift_sparing fun _ _ => ?_
  refine lift_sparing fun _ _ => ?_
  exact then_sparing (writeBundle_sparing _ _) fun _ _ => trivial

omit lawful in
theorem renew_sparing (b : Bundle τ) (id : SpiffeId) {m : String} (hm : PlainPath (splitSlash m))
    (hne : kit.setsMode = true → m ≠ name) (keepOld : Bool) :
    SparingProg supply create root name (renewWith kit root b id (keyPath root m) keepOld) w := by
  unfold renewWith
  refine (sparing_of_adds (c := .generateKey) rfl).bind ?_
  refine lift_sparing fun _ _ => ?_
  refine lift_sparing fun _ _ => ?_
  refine then_sparing (writeKey_sparing (plainPath_keyPath hroot hm) hne _) fun _ _ => ?_
  exact then_sparing (writeBundle_sparing _ _) fun _ _ => trivial

end

/-- A call that is not about to close the key file: it is no rotation of this
service that sets the mode, and it removes no directory on the way to the file. -/
def Call.Spares (root : PathName) (name : String) (sets : Bool) : Call → Prop
  | .initRoot _ | .addService _ => True
  | .rotateService m _ => sets = true → m ≠ name
  | .removeService m => PlainPath (splitSlash m) ∧ ¬ serviceDir root m <+: keyPath root name

theorem performWith_sparing {ε τ κ : Type} {kit : Kit ε τ κ} {sha256 : Hash}
    (lawful : kit.Lawful sha256) (hroot : PlainPath root)
    {removeFiles : PathName → Prog Cmd Ans ε Unit}
    (hfiles : ∀ m v, PlainPath (splitSlash m) → ¬ serviceDir root m <+: keyPath root name →
      SparingProg supply create root name (removeFiles (serviceDir root m)) v)
    {call : Call} (hcall : call.Spares root name kit.setsMode) {w : Moded}
    (h : Exposed root w name) :
    SparingProg supply create root name (performWith kit removeFiles root call) w := by
  cases call with
  | initRoot td =>
    change SparingProg _ _ _ _ (initRootWith kit root td) w
    unfold initRootWith
    rw [join_services lawful hroot]
    refine (sparing_of_adds (c := .present _) rfl).bind ?_
    split_ifs
    · trivial
    · refine (sparing_mkdirs (hroot.append (plainPath_singleton plain_servicesDirname))).bind ?_
      exact lift_sparing fun _ _ => writeBundle_sparing _ _
  | addService m =>
    refine then_sparing ?_ fun _ _ => trivial
    refine readBundle_sparing fun b => ?_
    refine lift_sparing fun id hid => ?_
    have hm : PlainPath (splitSlash m) := plain_of_isServiceName ⟨id, (lawful.parseId_ok _ _).mp hid⟩
    dsimp only
    rw [join_service lawful hroot hm, join_key lawful hroot hm]
    refine (sparing_of_adds (c := .present (keyPath root m)) rfl).bind ?_
    split_ifs with hthere
    · trivial
    · refine provision_sparing lawful hroot b id hm ?_
      -- the key file of the service is there
      rintro rfl
      refine hthere ?_
      obtain ⟨⟨x, hx⟩, -⟩ := h
      change w.disk.tree.present (keyPath root m) = true
      rw [Volume.present_plain (plainPath_keyPath hroot hm), hx]
      rfl
  | rotateService m keepOld =>
    refine then_sparing ?_ fun _ _ => trivial
    refine readBundle_sparing fun b => ?_
    refine lift_sparing fun id hid => ?_
    have hm : PlainPath (splitSlash m) := plain_of_isServiceName ⟨id, (lawful.parseId_ok _ _).mp hid⟩
    dsimp only
    rw [join_service_key lawful hroot hm]
    refine (sparing_of_adds (c := .present (keyPath root m)) rfl).bind ?_
    split_ifs
    · exact renew_sparing hroot b id hm hcall keepOld
    · trivial
  | removeService m =>
    obtain ⟨hm, hoff⟩ := hcall
    refine readBundle_sparing fun b => ?_
    rw [join_service lawful hroot hm]
    exact then_sparing (writeBundle_sparing _ _) fun _ v => hfiles m v hm hoff

theorem removeAll_sparing {ε : Type} {p : PathName} (hp : PlainPath p)
    (hoff : ¬ p <+: keyPath root name) (lenient : Bool) (raised : Errno → ε) (w : Moded) :
    SparingProg supply create root name (do
      let done ← removeAll p lenient
      check raised done : Prog Cmd Ans ε Unit) w :=
  (sparing_removed (c := .removeAll p lenient) rfl hp hoff).bind trivial

theorem unlinkMissingOk_sparing {p : PathName} (hp : PlainPath p) (hoff : ¬ p <+: keyPath root name)
    (w : Moded) : SparingProg supply create root name (Py.unlinkMissingOk p) w := by
  unfold Py.unlinkMissingOk
  refine (sparing_removed (c := .unlink p) rfl hp hoff).bind ?_
  split
  · trivial
  · trivial
  · trivial

theorem py_removeFiles_sparing (rt : Runtime) (hroot : PlainPath root) {m : String} (w : Moded)
    (hm : PlainPath (splitSlash m)) (hoff : ¬ serviceDir root m <+: keyPath root name) :
    SparingProg supply create root name (Py.removeFiles (serviceDir root m)) w := by
  have hfile : ∀ file, ¬ serviceDir root m ++ [file] <+: keyPath root name :=
    fun file h => hoff ((List.prefix_append _ _).trans h)
  unfold Py.removeFiles
  rw [show Py.join (serviceDir root m) [idFilename] = idPath root m from
      join_id (Py.kit_lawful rt) hroot hm,
    show Py.join (serviceDir root m) [keyFilename] = keyPath root m from
      join_key (Py.kit_lawful rt) hroot hm]
  refine then_sparing (unlinkMissingOk_sparing (plainPath_idPath hroot hm) (hfile _) w) fun _ v => ?_
  refine then_sparing (unlinkMissingOk_sparing (plainPath_keyPath hroot hm) (hfile _) v) fun _ u => ?_
  refine (sparing_of_adds (c := .present (serviceDir root m)) rfl).bind ?_
  split_ifs
  · exact (sparing_removed (c := .rmdir (serviceDir root m)) rfl (plainPath_serviceDir hroot hm)
      hoff).bind trivial
  · trivial

end

/-! ### The window -/

section

variable {ε τ κ : Type} {kit : Kit ε τ κ} {sha256 : Hash} {supply : ℕ → Point}
  {create : Content → Mode} {root : PathName} {name : String} (lawful : kit.Lawful sha256)
  (hroot : PlainPath root)

/-- A new key file is there with the mode it was opened with. -/
def OpenedWith (create : Content → Mode) (root : PathName) (name : String) (v : Moded) : Prop :=
  ∃ k, v.disk.tree.get (keyPath root name) = some (.file (.key k)) ∧
    v.mode (keyPath root name) = create (.key k)

theorem mode_of_write {w : Moded} {p : PathName} (hp : PlainPath p)
    (hput : w.disk.tree.Puttable p) (hnone : w.disk.tree.get p = none) (x : Content) :
    ((Moded.semantics supply create).step (.write p x) w).2.mode p = create x := by
  have hresolve := Volume.resolve_plain hp w.disk.tree ((Volume.isDir_iff _ _).mp hput.2.1)
  change Moded.modesAfter create (.write p x) w p = create x
  simp only [Moded.modesAfter, Moded.modeSet, hresolve, hnone, if_true, Function.update_self]

theorem opened_of_writeKey (hp : PlainPath (keyPath root name)) {w t : Moded} {key : Point}
    (h : (writeKeyWith kit (keyPath root name) key).Returns (Moded.semantics supply create) w () t)
    (hnone : w.disk.tree.get (keyPath root name) = none) :
    ∃ v, (writeKeyWith kit (keyPath root name) key).Visits (Moded.semantics supply create) w v ∧
      OpenedWith create root name v := by
  obtain ⟨done, v, hwrite, hrest⟩ := Prog.returns_bind.mp h
  obtain ⟨_, _, hcheck, -⟩ := Prog.returns_bind.mp hrest
  have hdone := (Prog.returns_lift.mp hcheck).1
  refine ⟨v, Prog.visits_bind_right hwrite (Prog.visits_start _ _), ?_⟩
  obtain ⟨hanswer, rfl⟩ := Prog.returns_exec.mp hwrite
  rcases w.disk.tree.write_plain_cases hp (.key key) with ⟨e, he⟩ | ⟨hput, he⟩
  · rw [← hanswer] at hdone
    change Except.mapError kit.raised (w.disk.tree.write (keyPath root name) (.key key)).1 = _ at hdone
    rw [he] at hdone
    cases hdone
  · refine ⟨key, ?_, mode_of_write hp hput hnone _⟩
    change (w.disk.tree.write (keyPath root name) (.key key)).2.get (keyPath root name) = _
    rw [he, Volume.get_put hput, if_pos rfl]

include lawful hroot

theorem opened_of_provision (hname : PlainPath (splitSlash name)) {w t : Moded} {b : Bundle τ}
    {id id' : SpiffeId}
    (h : (provisionWith kit root b id (serviceDir root name)).Returns
      (Moded.semantics supply create) w id' t)
    (hnone : w.disk.tree.get (keyPath root name) = none) :
    ∃ v, (provisionWith kit root b id (serviceDir root name)).Visits
        (Moded.semantics supply create) w v ∧ OpenedWith create root name v := by
  unfold provisionWith at h ⊢
  rw [join_key lawful hroot hname] at h ⊢
  obtain ⟨_, w₁, hmkdirs, h⟩ := Prog.returns_bind.mp h
  obtain ⟨_, w₂, hcheck, h⟩ := Prog.returns_bind.mp h
  obtain ⟨key, w₃, hgenerate, h⟩ := Prog.returns_bind.mp h
  obtain ⟨_, w₄, hwrite, -⟩ := Prog.returns_bind.mp h
  obtain ⟨-, rfl⟩ := Prog.returns_exec.mp hmkdirs
  obtain ⟨-, rfl⟩ := Prog.returns_lift.mp hcheck
  obtain ⟨-, rfl⟩ := Prog.returns_exec.mp hgenerate
  -- making the directory makes no file
  have hgrown := (Volume.mkdirs_spec (plainPath_serviceDir hroot hname) w.disk.tree).1
  have hnone' : (w.disk.tree.mkdirs (serviceDir root name)).2.get (keyPath root name) = none := by
    rw [keyPath] at hnone ⊢
    rw [hgrown.get_off_path not_on_way_of_append, hnone]
  obtain ⟨v, hv, hopened⟩ := opened_of_writeKey (plainPath_keyPath hroot hname) hwrite hnone'
  refine ⟨v, ?_, hopened⟩
  refine Prog.visits_bind_right hmkdirs (Prog.visits_bind_right hcheck
    (Prog.visits_bind_right hgenerate ?_))
  exact (Prog.visits_bind _ _ _ _).mpr (Or.inl hv)

theorem opened_of_addService (removeFiles : PathName → Prog Cmd Ans ε Unit) {w t : Moded}
    (h : (performWith kit removeFiles root (.addService name)).Returns
      (Moded.semantics supply create) w () t)
    (hnone : w.disk.tree.get (keyPath root name) = none) :
    ∃ v, (performWith kit removeFiles root (.addService name)).Visits
        (Moded.semantics supply create) w v ∧ OpenedWith create root name v := by
  obtain ⟨id, t', h, -⟩ := Prog.returns_bind.mp h
  obtain ⟨b, w₁, hread, h⟩ := Prog.returns_bind.mp h
  obtain ⟨id', w₂, hparse, h⟩ := Prog.returns_bind.mp h
  obtain ⟨there, w₃, hpresent, h⟩ := Prog.returns_bind.mp h
  -- up to here nothing has changed
  obtain ⟨answer, w₀, hfile, hbundle⟩ := Prog.returns_bind.mp hread
  obtain ⟨-, rfl⟩ := Prog.returns_exec.mp hfile
  obtain ⟨-, rfl⟩ := Prog.returns_lift.mp hbundle
  obtain ⟨hid, rfl⟩ := Prog.returns_lift.mp hparse
  obtain ⟨hthere, rfl⟩ := Prog.returns_exec.mp hpresent
  have hname : PlainPath (splitSlash name) :=
    plain_of_isServiceName ⟨id', (lawful.parseId_ok _ _).mp hid⟩
  have habsent : there = false := by
    change w.disk.tree.present (kit.join (kit.join root [servicesDirname, name]) [keyFilename]) = there
      at hthere
    rw [join_service lawful hroot hname, join_key lawful hroot hname,
      Volume.present_plain (plainPath_keyPath hroot hname), hnone] at hthere
    exact hthere.symm
  rw [habsent, if_neg Bool.false_ne_true, join_service lawful hroot hname] at h
  obtain ⟨v, hv, hopened⟩ := opened_of_provision lawful hroot hname h hnone
  refine ⟨v, (Prog.visits_bind _ _ _ _).mpr (Or.inl ?_), hopened⟩
  refine Prog.visits_bind_right hread (Prog.visits_bind_right hparse
    (Prog.visits_bind_right hpresent ?_))
  rw [habsent, if_neg Bool.false_ne_true, join_service lawful hroot hname]
  exact hv

end

section

variable {rt : Runtime} {supply : ℕ → Point} {root : PathName} {umask : Mode} {call : Call}
  {name : String} {w v : Moded} (hroot : PlainPath root)

include hroot

theorem Impl.opened {impl : Impl} {t : Moded}
    (h : impl.ending rt supply root umask (.addService name) w = (true, t))
    (hnone : w.disk.tree.get (keyPath root name) = none) :
    ∃ v, impl.Reaches rt supply root umask (.addService name) w v ∧
      OpenedWith (impl.createMode umask) root name v := by
  have hreturns : ∀ {ε : Type} {r : Except ε Unit × Moded}, (r.1.isOk, r.2) = (true, t) →
      r = (.ok (), t) := by
    intro ε r hr
    obtain ⟨hok, hstate⟩ := Prod.mk.inj hr
    refine Prod.ext ?_ hstate
    cases hr' : r.1 with
    | ok _ => rfl
    | error _ => rw [hr'] at hok; cases hok
  cases impl with
  | python => exact opened_of_addService (Py.kit_lawful rt) hroot Py.removeFiles (hreturns h) hnone
  | typescript => exact opened_of_addService (Ts.kit_lawful rt) hroot (Ts.removeFiles rt) (hreturns h) hnone
  | go => exact opened_of_addService (Go.kit_lawful rt) hroot Go.removeFiles (hreturns h) hnone

theorem Impl.Reaches.exposed {impl : Impl} (h : impl.Reaches rt supply root umask call w v)
    (hcall : call.Spares root name impl.setsMode) (hw : Exposed root w name) :
    Exposed root v name := by
  have hstep : ∀ (create : Content → Mode) (c : Cmd) (u t : Moded), Exposed root u name →
      Sparing root name c → (t = ((Moded.semantics supply create).step c u).2 ∨
        (Moded.semantics supply create).Torn c u t) → Exposed root t name :=
    fun _ _ _ _ hu hc ht => hc.step ht hu
  cases impl with
  | python =>
    rw [Impl.Reaches, Py.perform_eq] at h
    exact (performWith_sparing (Py.kit_lawful rt) hroot
      (fun m u hm hoff => py_removeFiles_sparing rt hroot u hm hoff) hcall hw).visits (hstep _) hw h
  | typescript =>
    rw [Impl.Reaches, Ts.perform_eq] at h
    exact (performWith_sparing (Ts.kit_lawful rt) hroot (fun m u hm hoff =>
      removeAll_sparing (plainPath_serviceDir hroot hm) hoff rt.lenient Ts.raised u) hcall hw).visits
        (hstep _) hw h
  | go =>
    rw [Impl.Reaches, Go.perform_eq] at h
    exact (performWith_sparing (Go.kit_lawful rt) hroot (fun m u hm hoff =>
      removeAll_sparing (plainPath_serviceDir hroot hm) hoff false _ u) hcall hw).visits
        (hstep _) hw h

end

/-- Calls that spare the key file of the service, each of which may stop on the
way. -/
def SparingRun (rt : Runtime) (supply : ℕ → Point) (root : PathName) (name : String) :
    Moded → Moded → Prop :=
  Relation.ReflTransGen fun w v => ∃ (impl : Impl) (call : Call) (umask : Mode),
    call.Spares root name impl.setsMode ∧ impl.Reaches rt supply root umask call w v

theorem SparingRun.exposed {rt : Runtime} {supply : ℕ → Point} {root : PathName} {name : String}
    (hroot : PlainPath root) {w v : Moded} (h : SparingRun rt supply root name w v)
    (hw : Exposed root w name) : Exposed root v name := by
  induction h with
  | refl => exact hw
  | tail _ hlast ih =>
    obtain ⟨impl, call, umask, hcall, hpass⟩ := hlast
    exact hpass.exposed hroot hcall ih

namespace Sample

def initialized : Moded := leftBy (.initRoot "a.b") bare

end Sample

end Spiffile
