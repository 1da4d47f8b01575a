import Spiffile.Lib.FileRegion
import Spiffile.Lib.Register
import Spiffile.Isolation

/-!
# Two processes on one root

Nothing locks a root. Two calls that run at the same time work on directories
of their own and share the bundle, which each reads once and writes once at
most: whoever writes what it has made of an older bundle undoes the other's
write, and otherwise one call might have run after the other.
-/

namespace Spiffile

open FileTree

/-! ### The bundle and the two directories -/

/-- The bundle file as a register: what reading it gives. -/
def bundleRegister (root : PathName) : Register Cmd Disk (Except Errno Content) where
  value s := s.tree.read (bundlePath root)
  reads
    | .read p => p = bundlePath root
    | _ => false
  target
    | .write p c => if p = bundlePath root then some (.ok c) else none
    | _ => none
  Good d := ∃ c, d = .ok c

abbrev Part : Type := Set (PathName × Node Content) × Set (PathName × Content)

/-- A process that generates this key, in a directory of its own beside that of
the other. -/
def partyAt (key : Point) (own other : PathName) : Party Cmd Ans Disk Part Part where
  sem := Disk.semantics fun _ => key
  mine s := s.tree.region own
  theirs s := s.tree.region other

/-- The command works at or below the directory. -/
def Cmd.Within (d : PathName) : Cmd → Prop
  | .present p | .chmod p | .unlink p | .rmdir p | .removeAll p _ => PlainPath p ∧ d <+: p
  | .write p _ => PlainPath p ∧ d <+: p ∧ p ≠ d
  | .mkdirs p => PlainPath p ∧ p = d
  | .read _ => False
  | .generateKey => True

section

variable (key : Point) {root : PathName} (hroot : PlainPath root) {d e : PathName}

include hroot

theorem sets_bundle (hother : Volume.Beside (bundlePath root) e) (c : Content) :
    (partyAt key d e).Sets (bundleRegister root) (.write (bundlePath root) c) (.ok c) where
  not_read := rfl
  written := if_pos rfl
  good := ⟨c, rfl⟩
  value s hgood := by
    obtain ⟨c', hc'⟩ := hgood
    have hplain := plainPath_bundlePath hroot
    have hput := Volume.puttable_of_file ((Volume.read_plain_eq_ok hplain s.tree c').mp hc')
    have hstep := write_step (fun _ => key) hplain (c := c) hput
    change (Disk.step (fun _ => key) (.write (bundlePath root) c) s).2.tree.read (bundlePath root) = .ok c
    rw [show Disk.step (fun _ => key) (.write (bundlePath root) c) s = _ from hstep]
    exact (Volume.read_plain_eq_ok hplain _ c).mpr (by rw [Volume.get_put hput, if_pos rfl])
  theirs_same s := by
    apply Volume.region_eq_iff.mpr
    have hchanged := Volume.changedBelow_write (plainPath_bundlePath hroot) (List.prefix_refl _) s.tree c
    exact hchanged.sameRegion hother

variable (hbundle : Volume.Beside d (bundlePath root)) (hbeside : Volume.Beside d e)

include hbundle hbeside

theorem own_of_changedBelow {c : Cmd} (hread : (bundleRegister root).reads c = false)
    (hwritten : (bundleRegister root).target c = none)
    (hsame : ∀ s u : Disk, Volume.SameRegion d s.tree u.tree →
      (Disk.step (fun _ => key) c s).1 = (Disk.step (fun _ => key) c u).1 ∧
        Volume.SameRegion d (Disk.step (fun _ => key) c s).2.tree (Disk.step (fun _ => key) c u).2.tree)
    (hchanged : ∀ s, Volume.ChangedBelow d s.tree (Disk.step (fun _ => key) c s).2.tree) :
    (partyAt key d e).Own (bundleRegister root) c where
  not_read := hread
  not_written := hwritten
  answer s u h := (hsame s u (Volume.region_eq_iff.mp h)).1
  mine_congr s u h := Volume.region_eq_iff.mpr (hsame s u (Volume.region_eq_iff.mp h)).2
  theirs_same s := Volume.region_eq_iff.mpr ((hchanged s).sameRegion hbeside)
  value_same s := ((hchanged s).sameRegion hbundle).read (plainPath_bundlePath hroot) (List.prefix_refl _)

theorem own_of_within {c : Cmd} (h : c.Within d) : (partyAt key d e).Own (bundleRegister root) c := by
  have hown := fun c => own_of_changedBelow key hroot hbundle hbeside (c := c)
  cases c with
  | present p =>
    exact hown _ rfl rfl (fun s u hs => ⟨hs.present h.1 h.2, hs⟩) fun s => .refl d s.tree
  | read p => exact h.elim
  | mkdirs p =>
    obtain ⟨hp, rfl⟩ := h
    exact hown _ rfl rfl (fun s u hs => hs.mkdirs hp)
      fun s => (Volume.mkdirs_spec hp s.tree).1.changedBelow
  | write p c =>
    obtain ⟨hp, hpre, hne⟩ := h
    refine hown _ rfl ?_ (fun s u hs => hs.write hp hpre hne c)
      fun s => Volume.changedBelow_write hp hpre s.tree c
    have hne' : p ≠ bundlePath root := by
      rintro rfl
      exact hbundle.left hpre
    simp [bundleRegister, hne']
  | chmod p =>
    refine hown _ rfl rfl (fun s u hs => ⟨?_, hs⟩) fun s => .refl d s.tree
    simp only [Disk.step]
    rw [hs.stat h.1 h.2]
  | unlink p =>
    exact hown _ rfl rfl (fun s u hs => hs.unlink h.1 h.2)
      fun s => Volume.changedBelow_unlink h.1 h.2 s.tree
  | rmdir p =>
    exact hown _ rfl rfl (fun s u hs => hs.rmdir h.1 h.2)
      fun s => Volume.changedBelow_rmdir h.1 h.2 s.tree
  | removeAll p lenient =>
    exact hown _ rfl rfl (fun s u hs => hs.removeAll h.1 h.2 lenient)
      fun s => Volume.changedBelow_removeAll h.1 h.2 s.tree lenient
  | generateKey => exact hown _ rfl rfl (fun s u hs => ⟨rfl, hs⟩) fun s => .refl d s.tree

end

/-! ### The calls -/

theorem serviceDir_beside_bundle (root : PathName) (name : String) :
    Volume.Beside (serviceDir root name) (bundlePath root) := by
  constructor
  · intro h
    have hname := (List.cons_prefix_cons.mp ((List.prefix_append_right_inj root).mp h)).1
    exact absurd hname (by decide)
  · exact bundlePath_off_services root (splitSlash name)

/-- Neither name is a directory on the path of the other. -/
structure NotNested (name name' : String) : Prop where
  left : ¬ splitSlash name <+: splitSlash name'
  right : ¬ splitSlash name' <+: splitSlash name

theorem NotNested.beside {name name' : String} (h : NotNested name name') (root : PathName) :
    Volume.Beside (serviceDir root name) (serviceDir root name') := by
  have hpre : ∀ a b : String, serviceDir root a <+: serviceDir root b → splitSlash a <+: splitSlash b :=
    fun a b hab => (List.cons_prefix_cons.mp ((List.prefix_append_right_inj root).mp hab)).2
  exact ⟨fun hab => h.left (hpre _ _ hab), fun hba => h.right (hpre _ _ hba)⟩

section

variable (key : Point) {ε τ κ : Type} {kit : Kit ε τ κ} {sha256 : Hash} (lawful : kit.Lawful sha256)
  {root : PathName} (hroot : PlainPath root) {name : String} (hname : PlainPath (splitSlash name))
  {e : PathName} (hbeside : Volume.Beside (serviceDir root name) e)
  (hother : Volume.Beside (bundlePath root) e)

section

include hroot hbeside

theorem quiet_within {c : Cmd} (h : c.Within (serviceDir root name)) :
    (partyAt key (serviceDir root name) e).Quiet (bundleRegister root)
      (Prog.exec c : Prog Cmd Ans ε (Ans c)) :=
  Party.quiet_exec (own_of_within key hroot (serviceDir_beside_bundle root name) hbeside h)

include hname

theorem quiet_writeKey (k : Point) :
    (partyAt key (serviceDir root name) e).Quiet (bundleRegister root)
      (writeKeyWith kit (keyPath root name) k) := by
  have hplain := plainPath_keyPath hroot hname
  have hpre : serviceDir root name <+: keyPath root name := List.prefix_append _ _
  unfold writeKeyWith
  refine Party.quiet_bind (quiet_within key hroot hbeside ⟨hplain, hpre, by simp [keyPath]⟩) fun done => ?_
  refine Party.quiet_bind trivial fun _ => ?_
  split_ifs
  · exact Party.quiet_bind (quiet_within key hroot hbeside ⟨hplain, hpre⟩) fun _ => trivial
  · trivial

end

section

include hroot hother

theorem once_writeBundle (b : Bundle τ) :
    (partyAt key (serviceDir root name) e).Once (bundleRegister root)
      (writeBundleWith kit (bundlePath root) b) :=
  Party.once_bind_quiet (Party.once_exec (sets_bundle key hroot hother _)) fun _ => trivial

end

include lawful hroot hname hbeside hother

theorem once_provision (b : Bundle τ) (id : SpiffeId) :
    (partyAt key (serviceDir root name) e).Once (bundleRegister root)
      (provisionWith kit root b id (serviceDir root name)) := by
  have hdir := plainPath_serviceDir hroot hname
  have hid := plainPath_idPath hroot hname
  have hpre : serviceDir root name <+: idPath root name := List.prefix_append _ _
  unfold provisionWith
  rw [join_key lawful hroot hname, join_id lawful hroot hname]
  refine Party.once_bind (quiet_within key hroot hbeside ⟨hdir, rfl⟩) fun done => ?_
  refine Party.once_bind trivial fun _ => ?_
  refine Party.once_bind (quiet_within key hroot hbeside trivial) fun k => ?_
  refine Party.once_bind (quiet_writeKey key hroot hname hbeside k) fun _ => ?_
  refine Party.once_bind (quiet_within key hroot hbeside ⟨hid, hpre, by simp [idPath]⟩) fun done => ?_
  refine Party.once_bind trivial fun _ => ?_
  refine Party.once_bind trivial fun jwk => ?_
  rw [setKeysWith, join_bundle lawful hroot]
  exact Party.once_bind_quiet (once_writeBundle key hroot hother _) fun _ => trivial

theorem once_add (b : Bundle τ) (id : SpiffeId) :
    (partyAt key (serviceDir root name) e).Once (bundleRegister root) (do
      let serviceDir := kit.join root [servicesDirname, name]
      if ← present (kit.join serviceDir [keyFilename]) then
        return id
      else
        provisionWith kit root b id serviceDir) := by
  have hplain := plainPath_keyPath hroot hname
  dsimp only
  rw [join_service lawful hroot hname, join_key lawful hroot hname]
  refine Party.once_bind (quiet_within key hroot hbeside ⟨hplain, List.prefix_append _ _⟩) fun there => ?_
  split_ifs
  · trivial
  · exact once_provision key lawful hroot hname hbeside hother b id

theorem once_rotate (b : Bundle τ) (id : SpiffeId) (keepOld : Bool) :
    (partyAt key (serviceDir root name) e).Once (bundleRegister root)
      (renewWith kit root b id (keyPath root name) keepOld) := by
  unfold renewWith
  refine Party.once_bind (quiet_within key hroot hbeside trivial) fun k => ?_
  refine Party.once_bind trivial fun jwk => ?_
  refine Party.once_bind trivial fun others => ?_
  refine Party.once_bind (quiet_writeKey key hroot hname hbeside k) fun _ => ?_
  rw [setKeysWith, join_bundle lawful hroot]
  exact Party.once_bind_quiet (once_writeBundle key hroot hother _) fun _ => trivial

end

/-! ### Each is a transaction on the bundle -/

section

variable (key : Point) (root d e : PathName)

/-- The program reads the bundle first, and writes it once at most. -/
def Transacts {ε α : Type} (p : Prog Cmd Ans ε α) : Prop :=
  ∃ k, p = .call (.read (bundlePath root)) k ∧
    (partyAt key d e).Transaction (bundleRegister root) (.read (bundlePath root)) k fun answer => answer

variable {key root d e}

theorem Transacts.discard {ε α : Type} {p : Prog Cmd Ans ε α} (h : Transacts key root d e p) :
    Transacts key root d e (Spiffile.discard p) := by
  obtain ⟨k, rfl, hk⟩ := h
  refine ⟨fun answer => Spiffile.discard (k answer), rfl, ⟨hk.reads, hk.not_written, hk.step, ?_⟩⟩
  intro answer
  rcases hk.goes_on answer with ⟨r, hr⟩ | ⟨hgood, honce⟩
  · rw [hr]
    cases r with
    | ok a => exact Or.inl ⟨.ok (), rfl⟩
    | error e => exact Or.inl ⟨.error e, rfl⟩
  · exact Or.inr ⟨hgood, Party.once_bind_quiet honce fun _ => trivial⟩

theorem transacts_of_read {ε τ κ α : Type} {kit : Kit ε τ κ} {sha256 : Hash} (lawful : kit.Lawful sha256)
    (hroot : PlainPath root) {f : Bundle τ → Prog Cmd Ans ε α}
    (hf : ∀ b, (partyAt key d e).Once (bundleRegister root) (f b)) :
    Transacts key root d e (readBundleWith kit root >>= f) := by
  refine ⟨fun answer => .lift (kit.parseBundle (kit.file answer)) >>= f, ?_, ?_⟩
  · rw [readBundleWith, join_bundle lawful hroot]
    rfl
  · refine ⟨by simp [bundleRegister], rfl, fun s => rfl, fun answer => ?_⟩
    cases hparse : kit.parseBundle (kit.file answer) with
    | error e => exact Or.inl ⟨.error e, rfl⟩
    | ok b =>
      obtain ⟨d, rfl⟩ := lawful.parse_ok _ _ hparse
      exact Or.inr ⟨⟨_, rfl⟩, hf b⟩

end

section

variable {key : Point} {root : PathName} (hroot : PlainPath root) {name : String}
  (hname : PlainPath (splitSlash name)) {e : PathName}
  (hbeside : Volume.Beside (serviceDir root name) e) (hother : Volume.Beside (bundlePath root) e)

include hroot hname hbeside hother

theorem transacts_perform {ε τ κ : Type} {kit : Kit ε τ κ} {sha256 : Hash} (lawful : kit.Lawful sha256)
    {removeFiles : PathName → Prog Cmd Ans ε Unit}
    (hfiles : (partyAt key (serviceDir root name) e).Quiet (bundleRegister root)
      (removeFiles (serviceDir root name))) (update : Update) :
    Transacts key root (serviceDir root name) e
      (performWith kit removeFiles root (update.call name)) := by
  cases update with
  | add =>
    refine Transacts.discard (transacts_of_read lawful hroot fun b => ?_)
    exact Party.once_bind trivial fun id => once_add key lawful hroot hname hbeside hother b id
  | rotate keepOld =>
    refine Transacts.discard (transacts_of_read lawful hroot fun b => ?_)
    refine Party.once_bind trivial fun id => ?_
    dsimp only
    rw [join_service_key lawful hroot hname]
    have hplain := plainPath_keyPath hroot hname
    refine Party.once_bind (quiet_within key hroot hbeside ⟨hplain, List.prefix_append _ _⟩)
      fun there => ?_
    split_ifs
    · exact once_rotate key lawful hroot hname hbeside hother b id keepOld
    · trivial
  | remove =>
    refine transacts_of_read lawful hroot fun b => ?_
    rw [join_bundle lawful hroot, join_service lawful hroot hname]
    exact Party.once_bind_quiet (once_writeBundle key hroot hother _) fun _ => hfiles

omit hother in
theorem py_removeFiles_quiet (rt : Runtime) :
    (partyAt key (serviceDir root name) e).Quiet (bundleRegister root)
      (Py.removeFiles (serviceDir root name)) := by
  have hdir := plainPath_serviceDir hroot hname
  have hid : Py.join (serviceDir root name) [idFilename] = idPath root name :=
    join_id (Py.kit_lawful rt) hroot hname
  have hkey : Py.join (serviceDir root name) [keyFilename] = keyPath root name :=
    join_key (Py.kit_lawful rt) hroot hname
  have hunlink : ∀ p, PlainPath p → serviceDir root name <+: p →
      (partyAt key (serviceDir root name) e).Quiet (bundleRegister root) (Py.unlinkMissingOk p) := by
    intro p hp hpre
    refine Party.quiet_bind (quiet_within key hroot hbeside ⟨hp, hpre⟩) fun done => ?_
    cases done with
    | ok _ => trivial
    | error errno => cases errno <;> trivial
  unfold Py.removeFiles
  rw [hid, hkey]
  refine Party.quiet_bind (hunlink _ (plainPath_idPath hroot hname) (List.prefix_append _ _)) fun _ => ?_
  refine Party.quiet_bind (hunlink _ (plainPath_keyPath hroot hname) (List.prefix_append _ _)) fun _ => ?_
  have hpre : serviceDir root name <+: serviceDir root name := List.prefix_refl _
  refine Party.quiet_bind (quiet_within key hroot hbeside ⟨hdir, hpre⟩) fun there => ?_
  split_ifs
  · exact Party.quiet_bind (quiet_within key hroot hbeside ⟨hdir, hpre⟩) fun _ => trivial
  · trivial

omit hother in
theorem removeAll_quiet {ε : Type} (raised : Errno → ε) (lenient : Bool) :
    (partyAt key (serviceDir root name) e).Quiet (bundleRegister root)
      (removeAll (serviceDir root name) lenient >>= check raised : Prog Cmd Ans ε Unit) :=
  Party.quiet_bind
    (quiet_within key hroot hbeside ⟨plainPath_serviceDir hroot hname, List.prefix_refl _⟩)
    fun _ => trivial

end

/-! ### Any two calls -/

def Impl.Raised : Impl → Type
  | python => Py.Exn
  | typescript => Ts.Exn
  | go => Go.Err

def Impl.perform (rt : Runtime) (root : PathName) (call : Call) :
    (impl : Impl) → Prog Cmd Ans impl.Raised Unit
  | python => Py.perform rt root call
  | typescript => Ts.perform rt root call
  | go => Go.perform rt root call

section

variable (rt : Runtime) (root : PathName)

def Event.program (e : Event) : Prog Cmd Ans e.impl.Raised Unit :=
  e.impl.perform rt root (e.update.call e.name)

/-- The disk after the call, with nobody else at work. -/
def Event.alone (e : Event) (s : Disk) : Disk :=
  ((e.program rt root).run (Disk.semantics fun _ => e.key) s).2

/-- The process of the first of two calls. -/
def Event.beside (e e' : Event) : Party Cmd Ans Disk Part Part :=
  partyAt e.key (serviceDir root e.name) (serviceDir root e'.name)

abbrev TwoCalls (e e' : Event) : Type :=
  Pair Cmd Ans e.impl.Raised e'.impl.Raised Unit (Except Errno Content) Disk

def bothStarted (e e' : Event) (s : Disk) : TwoCalls e e' :=
  Pair.start (e.program rt root) (e'.program rt root) s

/-- The two calls, with their commands in this order. -/
def interleaved (e e' : Event) (s : Disk) (schedule : List Side) : TwoCalls e e' :=
  (bothStarted rt root e e' s).run (bundleRegister root) (e.beside root e') (e'.beside root e) schedule

/-- Whoever writes the bundle finds there the document that it has read. -/
def BundleStable (e e' : Event) (s : Disk) (schedule : List Side) : Prop :=
  (bothStarted rt root e e' s).Validated (bundleRegister root) (e.beside root e') (e'.beside root e)
    schedule

variable {root}

theorem Event.transacts (hroot : PlainPath root) {td : String} {e e' : Event}
    (hname : IsServiceName td e.name) (hnested : NotNested e.name e'.name) :
    Transacts e.key root (serviceDir root e.name) (serviceDir root e'.name) (e.program rt root) := by
  obtain ⟨impl, update, name, key⟩ := e
  have hplain := plain_of_isServiceName hname
  have hbeside := hnested.beside root
  have hother := (serviceDir_beside_bundle root e'.name).symm
  unfold Event.program
  dsimp only at hplain hbeside ⊢
  cases impl with
  | python =>
    have hfiles : (partyAt key (serviceDir root name) (serviceDir root e'.name)).Quiet
        (bundleRegister root) (Py.removeFiles (serviceDir root name)) :=
      py_removeFiles_quiet hroot hplain hbeside rt
    have h := transacts_perform hroot hplain hbeside hother (Py.kit_lawful rt) hfiles update
    rw [← Py.perform_eq] at h
    exact h
  | typescript =>
    have hfiles : (partyAt key (serviceDir root name) (serviceDir root e'.name)).Quiet
        (bundleRegister root) (Ts.removeFiles rt (serviceDir root name)) :=
      removeAll_quiet hroot hplain hbeside Ts.raised rt.lenient
    have h := transacts_perform hroot hplain hbeside hother (Ts.kit_lawful rt) hfiles update
    rw [← Ts.perform_eq] at h
    exact h
  | go =>
    have hfiles : (partyAt key (serviceDir root name) (serviceDir root e'.name)).Quiet
        (bundleRegister root) (Go.removeFiles (serviceDir root name)) :=
      removeAll_quiet hroot hplain hbeside (fun _ => Go.Err.os) false
    have h := transacts_perform hroot hplain hbeside hother (Go.kit_lawful rt) hfiles update
    rw [← Go.perform_eq] at h
    exact h

end

/-- Under every interleaving of two calls for services that are not nested, if
whoever writes the bundle finds there the document it has read, the bundle
afterwards is that of one of the two orders. -/
theorem provisioning_serializable (rt : Runtime) (root : PathName) (hroot : PlainPath root) (td : String)
    (e e' : Event) (hname : IsServiceName td e.name) (hname' : IsServiceName td e'.name)
    (hnested : NotNested e.name e'.name) (s : Disk) (schedule : List Side)
    (hstable : BundleStable rt root e e' s schedule)
    (hended : (interleaved rt root e e' s schedule).Ended) :
    bundleFile root (interleaved rt root e e' s schedule).state =
        bundleFile root (e'.alone rt root (e.alone rt root s)) ∨
      bundleFile root (interleaved rt root e e' s schedule).state =
        bundleFile root (e.alone rt root (e'.alone rt root s)) := by
  obtain ⟨k, hk, hL⟩ := Event.transacts rt hroot hname hnested
  obtain ⟨k', hk', hR⟩ := Event.transacts rt hroot hname' ⟨hnested.right, hnested.left⟩
  unfold BundleStable bothStarted at hstable
  unfold interleaved bothStarted at hended ⊢
  unfold Event.alone
  rw [hk, hk'] at hstable hended ⊢
  have hserial := Pair.serial_of_validated (fun _ => rfl) (fun _ => rfl) hL hR s schedule hstable hended
  rcases hserial with h | h
  · exact Or.inl (congrArg (bundleFileWith .notJson) h)
  · exact Or.inr (congrArg (bundleFileWith .notJson) h)

/-! ### Two calls at once -/

namespace Sample

def addX : Event := event .typescript .add "x"

def addY : Event := ⟨.typescript, .add, "y", secondPoint⟩

def removeX : Event := event .typescript .remove "x"

theorem isServiceName_y : IsServiceName "a.b" "y" := ⟨⟨"a.b", "/y"⟩, rfl⟩

theorem notNested_xy : NotNested "x" "y" := ⟨by decide, by decide⟩

/-- Both read the bundle, and write it one after the other. -/
def bothRead : List Side := [.left, .right] ++ List.replicate 7 .left ++ List.replicate 7 .right

/-- The second reads what the first has written, while the first goes on. -/
def inTurn : List Side := [.left, .left, .right, .left] ++ List.replicate 7 .right

theorem bundle_ne (id : String) {f g : BundleFile} (hf : Impl.typescript.bound f id = none)
    (hg : (Impl.typescript.bound g id).isSome = true) : f ≠ g := by
  rintro rfl
  rw [hf] at hg
  cases hg

theorem stable_inTurn : BundleStable runtime root removeX addY registered inTurn := by
  refine ⟨?_, ?_, ?_, ?_, ?_, ?_, ?_, ?_, ?_, ?_, ?_, trivial⟩ <;> intro v hv <;>
    first | (cases hv; rfl) | cases hv

end Sample

theorem provisioning_serializable_sample :
    bundleFile Sample.root (interleaved Sample.runtime Sample.root Sample.removeX Sample.addY
        Sample.registered Sample.inTurn).state =
      bundleFile Sample.root (Sample.addY.alone Sample.runtime Sample.root
        (Sample.removeX.alone Sample.runtime Sample.root Sample.registered)) ∨
    bundleFile Sample.root (interleaved Sample.runtime Sample.root Sample.removeX Sample.addY
        Sample.registered Sample.inTurn).state =
      bundleFile Sample.root (Sample.removeX.alone Sample.runtime Sample.root
        (Sample.addY.alone Sample.runtime Sample.root Sample.registered)) :=
  provisioning_serializable Sample.runtime Sample.root Sample.plain_root "a.b" Sample.removeX Sample.addY
    Sample.isServiceName_x Sample.isServiceName_y Sample.notNested_xy Sample.registered Sample.inTurn
    Sample.stable_inTurn ⟨⟨_, rfl⟩, ⟨_, rfl⟩⟩

/-- When both have read the bundle before one of them writes it, an added key is
lost, and a revoked one is bound again. -/
theorem updates_overwritten :
    (IsServiceName "a.b" "x" ∧ IsServiceName "a.b" "y" ∧ NotNested "x" "y") ∧
    ((interleaved Sample.runtime Sample.root Sample.addX Sample.addY Sample.initialised
        Sample.bothRead).Ended ∧
      bundleFile Sample.root (interleaved Sample.runtime Sample.root Sample.addX Sample.addY
          Sample.initialised Sample.bothRead).state ≠
        bundleFile Sample.root (Sample.addY.alone Sample.runtime Sample.root
          (Sample.addX.alone Sample.runtime Sample.root Sample.initialised)) ∧
      bundleFile Sample.root (interleaved Sample.runtime Sample.root Sample.addX Sample.addY
          Sample.initialised Sample.bothRead).state ≠
        bundleFile Sample.root (Sample.addX.alone Sample.runtime Sample.root
          (Sample.addY.alone Sample.runtime Sample.root Sample.initialised))) ∧
    (interleaved Sample.runtime Sample.root Sample.removeX Sample.addY Sample.registered
        Sample.bothRead).Ended ∧
      bundleFile Sample.root (interleaved Sample.runtime Sample.root Sample.removeX Sample.addY
          Sample.registered Sample.bothRead).state ≠
        bundleFile Sample.root (Sample.addY.alone Sample.runtime Sample.root
          (Sample.removeX.alone Sample.runtime Sample.root Sample.registered)) ∧
      bundleFile Sample.root (interleaved Sample.runtime Sample.root Sample.removeX Sample.addY
          Sample.registered Sample.bothRead).state ≠
        bundleFile Sample.root (Sample.removeX.alone Sample.runtime Sample.root
          (Sample.addY.alone Sample.runtime Sample.root Sample.registered)) := by
  have hx : ∀ {f g : BundleFile}, Impl.typescript.bound f (serviceId "a.b" "x") = none →
      (Impl.typescript.bound g (serviceId "a.b" "x")).isSome = true → f ≠ g :=
    Sample.bundle_ne (serviceId "a.b" "x")
  refine ⟨⟨Sample.isServiceName_x, Sample.isServiceName_y, Sample.notNested_xy⟩, ?_, ?_⟩
  · exact ⟨⟨⟨_, rfl⟩, ⟨_, rfl⟩⟩, hx rfl rfl, hx rfl rfl⟩
  · exact ⟨⟨⟨_, rfl⟩, ⟨_, rfl⟩⟩, (hx rfl rfl).symm, (hx rfl rfl).symm⟩

end Spiffile
