import Spiffile.Lib.Extension
import Spiffile.Custody

/-!
# Who can read a private key

The permission bits of the files, which the other modules leave out. A new file
is opened with the bits of its call less the umask, an old one keeps its own;
`provision.go` opens a key file with `0600`, `provision.py` and `provision.ts`
set this mode after the file is written.
-/

namespace Spiffile

open FileTree

abbrev Mode := BitVec 9

/-- Nothing for the group and for others. -/
def Mode.Private (m : Mode) : Prop := m &&& 0o077#9 = 0

instance (m : Mode) : Decidable m.Private := inferInstanceAs (Decidable (_ = _))

theorem Mode.Private.mask {m : Mode} (h : m.Private) (k : Mode) : Mode.Private (m &&& k) := by
  have hm : m &&& 0o077#9 = 0 := h
  calc
    m &&& k &&& 0o077#9 = (m &&& 0o077#9) &&& k := by
      rw [BitVec.and_assoc, BitVec.and_comm k, ← BitVec.and_assoc]
    _ = 0 := by rw [hm]; exact BitVec.zero_and

/-- The mode that `chmod` sets. -/
def keyMode : Mode := 0o600#9

theorem private_keyMode : keyMode.Private := by decide

/-- The bits a new file is asked for. -/
def Impl.openMode : Impl → Content → Mode
  | go, .key _ => 0o600#9
  | go, _ => 0o644#9
  | _, _ => 0o666#9

def Impl.createMode (umask : Mode) (impl : Impl) (x : Content) : Mode := impl.openMode x &&& ~~~umask

/-- The mode of a key file is set by a call of its own. -/
def Impl.setsMode : Impl → Bool
  | go => false
  | _ => true

/-- A disk with the modes of its files. -/
structure Moded where
  disk : Disk
  mode : PathName → Mode

namespace Moded

/-- The node whose mode the command sets. -/
def modeSet (create : Content → Mode) : Cmd → Disk → Option (PathName × Mode)
  | .write p x, s =>
    match s.tree.resolve p with
    | .ok q => if s.tree.get q = none then some (q, create x) else none
    | .error _ => none
  | .chmod p, s =>
    match s.tree.stat p with
    | .ok (q, _) => some (q, keyMode)
    | .error _ => none
  | _, _ => none

def modesAfter (create : Content → Mode) (c : Cmd) (w : Moded) : PathName → Mode :=
  match modeSet create c w.disk with
  | some (q, m) => Function.update w.mode q m
  | none => w.mode

def semantics (supply : ℕ → Point) (create : Content → Mode) : Semantics Cmd Ans Moded where
  step c w := ((Disk.step supply c w.disk).1, ⟨(Disk.step supply c w.disk).2, modesAfter create c w⟩)
  Torn c w v := Disk.Torn c w.disk v.disk ∧ v.mode = modesAfter create c w

theorem extends_disk (supply : ℕ → Point) (create : Content → Mode) :
    (semantics supply create).Extends (Disk.semantics supply) disk where
  answer _ _ := rfl
  state _ _ := rfl
  torn _ _ _ h := h.1
  lift c w s h := ⟨⟨s, modesAfter create c w⟩, rfl, h, rfl⟩

end Moded

/-! ### One command -/

section

variable (root : PathName)

/-- The group or others can open the key file of the service. -/
def Exposed (w : Moded) (name : String) : Prop :=
  (∃ x, w.disk.tree.get (keyPath root name) = some (.file x)) ∧
    ¬ (w.mode (keyPath root name)).Private

/-- Nothing is exposed that was not exposed before. -/
def NoneExposed (w v : Moded) : Prop := ∀ name, Exposed root v name → Exposed root w name

/-- A command that opens no key file for others. -/
structure Calm (create : Content → Mode) (c : Cmd) (u : Disk) : Prop where
  plain : ∀ p, c = .mkdirs p → PlainPath p
  key : ∀ p x name, c = .write p x → u.tree.resolve p = .ok (keyPath root name) →
    u.tree.get (keyPath root name) = none → (create x).Private

end

section

variable {root : PathName} {supply : ℕ → Point} {create : Content → Mode}

theorem NoneExposed.refl (w : Moded) : NoneExposed root w w := fun _ h => h

theorem NoneExposed.trans {u v w : Moded} (h : NoneExposed root u v) (h' : NoneExposed root v w) :
    NoneExposed root u w := fun name he => h name (h' name he)

theorem modeSet_cases {c : Cmd} {u : Disk} {q : PathName} {m : Mode}
    (h : Moded.modeSet create c u = some (q, m)) :
    (∃ p n, c = .chmod p ∧ u.tree.stat p = .ok (q, n) ∧ m = keyMode) ∨
      ∃ p x, c = .write p x ∧ u.tree.resolve p = .ok q ∧ u.tree.get q = none ∧ m = create x := by
  cases c with
  | write p x =>
    simp only [Moded.modeSet] at h
    split at h
    · next r hr =>
      split_ifs at h with hnone
      cases h
      exact Or.inr ⟨p, x, rfl, hr, hnone, rfl⟩
    · cases h
  | chmod p =>
    simp only [Moded.modeSet] at h
    split at h
    · next r n hr =>
      cases h
      exact Or.inl ⟨p, n, rfl, hr, rfl⟩
    · cases h
  | _ => cases h

theorem modesAfter_cases (create : Content → Mode) (c : Cmd) (w : Moded) (q : PathName) :
    (∀ m, Moded.modeSet create c w.disk ≠ some (q, m)) ∧
        Moded.modesAfter create c w q = w.mode q ∨
      ∃ m, Moded.modeSet create c w.disk = some (q, m) ∧ Moded.modesAfter create c w q = m := by
  unfold Moded.modesAfter
  cases hset : Moded.modeSet create c w.disk with
  | none => exact Or.inl ⟨by simp, rfl⟩
  | some r =>
    by_cases hq : q = r.1
    · subst hq
      exact Or.inr ⟨r.2, rfl, Function.update_self ..⟩
    · refine Or.inl ⟨fun m hm => hq ?_, Function.update_of_ne hq ..⟩
      rw [Option.some_inj.mp hm]

/-- A key file that is exposed was so before, or the command opens it with a
mode that is not private. -/
theorem exposed_of_step {c : Cmd} {w v : Moded} (hplain : ∀ p, c = .mkdirs p → PlainPath p)
    (hv : v = ((Moded.semantics supply create).step c w).2 ∨
      (Moded.semantics supply create).Torn c w v) {name : String} (h : Exposed root v name) :
    Exposed root w name ∨
      ∃ p x, c = .write p x ∧ w.disk.tree.resolve p = .ok (keyPath root name) ∧
        w.disk.tree.get (keyPath root name) = none ∧ ¬ (create x).Private := by
  obtain ⟨⟨x, hx⟩, hpublic⟩ := h
  have hdisk : v.disk = (Disk.step supply c w.disk).2 ∨ Disk.Torn c w.disk v.disk :=
    hv.imp (congrArg Moded.disk) And.left
  have hmode : v.mode = Moded.modesAfter create c w := hv.elim (congrArg Moded.mode) And.right
  rw [hmode] at hpublic
  rcases modesAfter_cases create c w (keyPath root name) with ⟨hunset, hm⟩ | ⟨m, hset, hm⟩
  · -- the mode is the old one, so the file was there
    rw [hm] at hpublic
    refine Or.inl ⟨?_, hpublic⟩
    rcases file_of_step hplain hdisk hx with hold | ⟨p, y, rfl, hp, hdir, -⟩
    · exact ⟨x, hold⟩
    · cases hget : w.disk.tree.get (keyPath root name) with
      | none => exact absurd (by simp [Moded.modeSet, hp, hget]) (hunset (create y))
      | some n =>
        cases n with
        | dir => exact absurd ((w.disk.tree.isDir_iff _).mpr hget) hdir
        | file z => exact ⟨z, rfl⟩
  · rw [hm] at hpublic
    rcases modeSet_cases hset with ⟨-, -, -, -, rfl⟩ | ⟨p, y, rfl, hp, hnone, rfl⟩
    · exact absurd private_keyMode hpublic
    · exact Or.inr ⟨p, y, rfl, hp, hnone, hpublic⟩

/-- What a calm command keeps, also where it is cut short. -/
theorem Calm.step {c : Cmd} {w v : Moded} (hc : Calm root create c w.disk)
    (hv : v = ((Moded.semantics supply create).step c w).2 ∨
      (Moded.semantics supply create).Torn c w v) : NoneExposed root w v := by
  intro name h
  rcases exposed_of_step hc.plain hv h with hold | ⟨p, x, rfl, hp, hnone, hpublic⟩
  · exact hold
  · exact absurd (hc.key p x name rfl hp hnone) hpublic

theorem calm_of_not_makes {c : Cmd} (h : c.makes = false) (u : Disk) : Calm root create c u where
  plain p hc := by rw [hc] at h; cases h
  key p x name hc := by rw [hc] at h; cases h

theorem calm_mkdirs {p : PathName} (hp : PlainPath p) (u : Disk) :
    Calm root create (.mkdirs p) u where
  plain q hc := by cases hc; exact hp
  key q x name hc := by cases hc

/-- A file that is not a key file. -/
theorem calm_write_off {p : PathName} (hp : PlainPath p) (hne : ∀ name, p ≠ keyPath root name)
    (x : Content) (u : Disk) : Calm root create (.write p x) u where
  plain q hc := by cases hc
  key q y name hc hq _ := by
    cases hc
    exact absurd (Volume.resolve_plain_eq_ok hp u.tree hq).symm (hne name)

theorem calm_write_private {x : Content} (hx : (create x).Private) (p : PathName) (u : Disk) :
    Calm root create (.write p x) u where
  plain q hc := by cases hc
  key q y name hc _ _ := by cases hc; exact hx

/-- An old file keeps its mode. -/
theorem calm_write_old {p : PathName} (hp : PlainPath p) {u : Disk} {n : Node Content}
    (hget : u.tree.get p = some n) (x : Content) : Calm root create (.write p x) u where
  plain q hc := by cases hc
  key q y name hc hq hnone := by
    cases hc
    rw [Volume.resolve_plain_eq_ok hp u.tree hq, hget] at hnone
    cases hnone

end

/-! ### Each function -/

/-- At most the key file of the service is exposed besides. -/
def Window (root : PathName) (first : Moded) (name : String) (v : Moded) : Prop :=
  ∀ m, Exposed root v m → Exposed root first m ∨ m = name

/-- Nothing is exposed at the end, and where the mode is set at all, a rotated
key is not. -/
structure Settled {ε : Type} (root : PathName) (sets : Bool) (call : Call) (first : Moded)
    (r : Except ε Unit) (v : Moded) : Prop where
  kept : NoneExposed root first v
  closed : ∀ name keepOld, call = .rotateService name keepOld → r = .ok () → sets = true →
    ¬ Exposed root v name

section

variable {ε τ κ α : Type} {kit : Kit ε τ κ} {supply : ℕ → Point} {create : Content → Mode}
  {root : PathName} {first w : Moded} {Mid : Moded → Prop}
  (hmid : ∀ v, NoneExposed root first v → Mid v)

theorem then_kept {β : Type} {p : Prog Cmd Ans ε β} {f : β → Prog Cmd Ans ε α}
    {Q : Except ε β → Moded → Prop} {Post : Except ε α → Moded → Prop}
    (hp : p.Sat (Moded.semantics supply create) w Mid Q)
    (herr : ∀ e v, Q (.error e) v → Post (.error e) v)
    (hf : ∀ b v, Q (.ok b) v → (f b).Sat (Moded.semantics supply create) v Mid Post) :
    (p >>= f).Sat (Moded.semantics supply create) w Mid Post := by
  rw [Prog.sat_bind]
  refine hp.mono (fun _ h => h) fun r v _ hr => ?_
  cases r with
  | ok b => exact hf b v hr
  | error e => exact herr e v hr

include hmid

/-- One calm command, then the rest. -/
theorem Calm.bind {c : Cmd} (hc : Calm root create c w.disk) (hw : NoneExposed root first w)
    {f : Ans c → Prog Cmd Ans ε α} {Post : Except ε α → Moded → Prop}
    (hf : NoneExposed root first ((Moded.semantics supply create).step c w).2 →
      (f ((Moded.semantics supply create).step c w).1).Sat (Moded.semantics supply create)
        ((Moded.semantics supply create).step c w).2 Mid Post) :
    (Prog.exec c >>= f).Sat (Moded.semantics supply create) w Mid Post := by
  rw [Prog.sat_exec_bind]
  refine ⟨hmid w hw, fun v hv => hmid v (hw.trans (hc.step (Or.inr hv))), hf ?_⟩
  exact hw.trans (hc.step (Or.inl rfl))

theorem lift_kept {β : Type} {r : Except ε β} {f : β → Prog Cmd Ans ε α}
    {Post : Except ε α → Moded → Prop} (hw : NoneExposed root first w)
    (herr : ∀ e, Post (.error e) w)
    (hf : ∀ b, r = .ok b → (f b).Sat (Moded.semantics supply create) w Mid Post) :
    (Prog.lift r >>= f).Sat (Moded.semantics supply create) w Mid Post := by
  cases r with
  | ok b => exact hf b rfl
  | error e => exact ⟨hmid w hw, herr e⟩

/-! #### The key file -/

omit hmid in
/-- Writing a key file opens at most this file. -/
theorem window_of_write {name : String} (hp : PlainPath (keyPath root name))
    (hw : NoneExposed root first w) {x : Content} {v : Moded}
    (hv : v = ((Moded.semantics supply create).step (.write (keyPath root name) x) w).2 ∨
      (Moded.semantics supply create).Torn (.write (keyPath root name) x) w v) :
    Window root first name v := by
  intro m hm
  have hplain : ∀ p, Cmd.write (keyPath root name) x = .mkdirs p → PlainPath p := by simp
  rcases exposed_of_step hplain hv hm with hold | ⟨p, y, hc, hpath, -⟩
  · exact Or.inl (hw m hold)
  · cases hc
    exact Or.inr (keyPath_injective root (Volume.resolve_plain_eq_ok hp _ hpath))

omit hmid in
/-- The call after it closes this file. -/
theorem closed_of_chmod (supply : ℕ → Point) (create : Content → Mode) {name : String}
    (hp : PlainPath (keyPath root name)) {x : Content}
    (hget : w.disk.tree.get (keyPath root name) = some (.file x)) :
    ¬ Exposed root ((Moded.semantics supply create).step (.chmod (keyPath root name)) w).2 name := by
  intro h
  have hset : Moded.modesAfter create (.chmod (keyPath root name)) w (keyPath root name) = keyMode := by
    simp only [Moded.modesAfter, Moded.modeSet, Volume.stat_plain_some hp _ hget,
      Function.update_self]
  refine h.2 ?_
  change (Moded.modesAfter create (.chmod (keyPath root name)) w (keyPath root name)).Private
  rw [hset]
  exact private_keyMode

omit hmid in
/-- A write that fails leaves the modes as they are. -/
theorem modeSet_of_write_error {u : Disk} {p : PathName} {x : Content} {e : Errno}
    (he : (u.tree.write p x).1 = .error e) : Moded.modeSet create (.write p x) u = none := by
  unfold Volume.write at he
  simp only [Moded.modeSet]
  split at he
  · next e' hr => simp only [hr]
  · next q hr =>
    split_ifs at he with hdir
    simp only [hr]
    rw [if_neg]
    rw [(u.tree.isDir_iff q).mp hdir]
    simp

omit hmid in
theorem write_cases (supply : ℕ → Point) (create : Content → Mode) (w : Moded) {p : PathName}
    (hp : PlainPath p) (x : Content) :
    (∃ e, (Moded.semantics supply create).step (.write p x) w = (.error e, w)) ∨
      ((Moded.semantics supply create).step (.write p x) w).1 = .ok () ∧
        ((Moded.semantics supply create).step (.write p x) w).2.disk.tree.get p = some (.file x) := by
  rcases w.disk.tree.write_plain_cases hp x with ⟨e, he⟩ | ⟨hput, he⟩
  · left
    refine ⟨e, ?_⟩
    change ((w.disk.withTree (w.disk.tree.write p x)).1,
      Moded.mk (w.disk.withTree (w.disk.tree.write p x)).2 (Moded.modesAfter create (.write p x) w)) =
        (Except.error e, w)
    rw [Moded.modesAfter, modeSet_of_write_error (congrArg Prod.fst he), he]
    rfl
  · refine Or.inr ⟨congrArg Prod.fst he, ?_⟩
    change (w.disk.tree.write p x).2.get p = _
    rw [he, Volume.get_put hput, if_pos rfl]

/-- Setting the mode of a key file that is there. -/
theorem setMode_kept {name : String} (hp : PlainPath (keyPath root name)) {x : Content}
    (hget : w.disk.tree.get (keyPath root name) = some (.file x)) (hw : Mid w)
    (hopen : Window root first name w) :
    (do
      let done ← chmod (keyPath root name)
      check kit.raised done : Prog Cmd Ans ε Unit).Sat (Moded.semantics supply create) w Mid
        fun _ v => NoneExposed root first v ∧ ¬ Exposed root v name := by
  have hclosed := closed_of_chmod supply create hp hget
  have hcalm : Calm root create (.chmod (keyPath root name)) w.disk := calm_of_not_makes rfl _
  have hkept : NoneExposed root first
      ((Moded.semantics supply create).step (.chmod (keyPath root name)) w).2 := by
    intro m hm
    rcases hopen m (hcalm.step (Or.inl rfl) m hm) with hfirst | rfl
    · exact hfirst
    · exact absurd hm hclosed
  rw [chmod, Prog.sat_exec_bind]
  exact ⟨hw, fun v hv => hv.1.elim, hmid _ hkept, hkept, hclosed⟩

/-- Where the mode is set by a call of its own, the file is open in between. -/
theorem writeKey_kept {name : String} (hp : PlainPath (keyPath root name)) (key : Point)
    (hw : NoneExposed root first w)
    (hkey : Calm root create (.write (keyPath root name) (.key key)) w.disk ∨
      kit.setsMode = true ∧ ∀ v, Window root first name v → Mid v) :
    (writeKeyWith kit (keyPath root name) key).Sat (Moded.semantics supply create) w Mid
      fun r v => NoneExposed root first v ∧
        ∀ b, r = .ok b → kit.setsMode = true → ¬ Exposed root v name := by
  have hvisit : ∀ v, v = ((Moded.semantics supply create).step
      (.write (keyPath root name) (.key key)) w).2 ∨
        (Moded.semantics supply create).Torn (.write (keyPath root name) (.key key)) w v →
      Window root first name v ∧ Mid v := by
    intro v hv
    have hopen := window_of_write hp hw hv
    rcases hkey with hcalm | ⟨-, hmid'⟩
    · exact ⟨hopen, hmid v (hw.trans (hcalm.step hv))⟩
    · exact ⟨hopen, hmid' v hopen⟩
  unfold writeKeyWith
  rw [write, Prog.sat_exec_bind]
  refine ⟨hmid w hw, fun v hv => (hvisit v (Or.inr hv)).2, ?_⟩
  rcases write_cases supply create w hp (.key key) with
    ⟨e, he⟩ | ⟨hok, hget⟩
  · rw [he]
    exact ⟨hmid w hw, hw, by simp⟩
  · obtain ⟨hopen, hv⟩ := hvisit _ (Or.inl rfl)
    rw [hok]
    change (if kit.setsMode then _ else _ : Prog Cmd Ans ε Unit).Sat _ _ _ _
    split_ifs with hsets
    · refine (setMode_kept hmid hp hget hv hopen).mono (fun _ h => h) ?_
      exact fun r v _ h => ⟨h.1, fun _ _ _ => h.2⟩
    · rcases hkey with hcalm | ⟨hsets', -⟩
      · exact ⟨hv, hw.trans (hcalm.step (Or.inl rfl)), fun _ _ h => absurd h hsets⟩
      · exact absurd hsets' hsets

/-! #### The functions -/

theorem writeBundle_kept (hroot : PlainPath root) (hw : NoneExposed root first w) (b : Bundle τ) :
    (writeBundleWith kit (bundlePath root) b).Sat (Moded.semantics supply create) w Mid
      fun _ v => NoneExposed root first v := by
  unfold writeBundleWith
  have hcalm : Calm root create (.write (bundlePath root) (.json (kit.serialise b))) w.disk :=
    calm_write_off (plainPath_bundlePath hroot) (fun n => (keyPath_ne_bundlePath root n).symm) _ _
  exact hcalm.bind hmid hw fun hv => ⟨hmid _ hv, hv⟩

theorem readBundle_kept (hw : NoneExposed root first w) {f : Bundle τ → Prog Cmd Ans ε α}
    {Post : Except ε α → Moded → Prop} (herr : ∀ e, Post (.error e) w)
    (hf : ∀ b, (f b).Sat (Moded.semantics supply create) w Mid Post) :
    (readBundleWith kit root >>= f).Sat (Moded.semantics supply create) w Mid Post := by
  have hcalm : Calm root create (.read (kit.join root [bundleFilename])) w.disk :=
    calm_of_not_makes rfl _
  refine then_kept (Q := fun _ v => v = w) ?_ (fun e v hv => hv ▸ herr e) fun b v hv => hv ▸ hf b
  exact hcalm.bind hmid hw fun _ => ⟨hmid _ hw, rfl⟩

variable {sha256 : Hash} (lawful : kit.Lawful sha256) (hroot : PlainPath root)

include lawful hroot

theorem setKeys_kept (hw : NoneExposed root first w) (b : Bundle τ) (id : String) (keys : List Json) :
    (setKeysWith kit root b id keys).Sat (Moded.semantics supply create) w Mid
      fun _ v => NoneExposed root first v := by
  rw [setKeysWith, join_bundle lawful hroot]
  exact writeBundle_kept hmid hroot hw _

theorem provision_kept (hw : NoneExposed root first w) (b : Bundle τ) (id : SpiffeId) {name : String}
    (hname : PlainPath (splitSlash name))
    (hkey : (∀ key, (create (.key key)).Private) ∨
      kit.setsMode = true ∧ ∀ v, Window root first name v → Mid v) :
    (provisionWith kit root b id (serviceDir root name)).Sat (Moded.semantics supply create) w Mid
      fun _ v => NoneExposed root first v := by
  unfold provisionWith
  rw [join_key lawful hroot hname, join_id lawful hroot hname]
  refine (calm_mkdirs (plainPath_serviceDir hroot hname) _).bind hmid hw fun hw => ?_
  refine lift_kept hmid hw (fun _ => hw) fun _ _ => ?_
  have hgen : ∀ u, Calm root create .generateKey u := calm_of_not_makes rfl
  refine (hgen _).bind hmid hw fun hw => ?_
  refine then_kept (writeKey_kept hmid (plainPath_keyPath hroot hname) _ hw ?_)
    (fun _ _ h => h.1) fun _ v hv => ?_
  · exact hkey.imp_left fun hprivate => calm_write_private (hprivate _) _ _
  have hid : Calm root create (.write (idPath root name) (.text (id.toString ++ "\n"))) v.disk :=
    calm_write_off (plainPath_idPath hroot hname) (idPath_ne_keyPath root name) _ _
  refine hid.bind hmid hv.1 fun hv => ?_
  refine lift_kept hmid hv (fun _ => hv) fun _ _ => ?_
  refine lift_kept hmid hv (fun _ => hv) fun _ _ => ?_
  exact then_kept (setKeys_kept hmid lawful hroot hv _ _ _) (fun _ _ h => h)
    fun _ _ h => ⟨hmid _ h, h⟩

/-- The key file is there, so it keeps its mode until the call sets it. -/
theorem renew_kept (hw : NoneExposed root first w) (b : Bundle τ) (id : SpiffeId) {name : String}
    (hname : PlainPath (splitSlash name)) {n : Node Content}
    (hget : w.disk.tree.get (keyPath root name) = some n) (keepOld : Bool) :
    (renewWith kit root b id (keyPath root name) keepOld).Sat (Moded.semantics supply create) w Mid
      fun r v => NoneExposed root first v ∧
        ∀ b, r = .ok b → kit.setsMode = true → ¬ Exposed root v name := by
  unfold renewWith
  have hgen : Calm root create .generateKey w.disk := calm_of_not_makes rfl _
  have hcalm : ∀ x, Calm root create (.write (keyPath root name) x)
      ((Moded.semantics supply create).step .generateKey w).2.disk :=
    fun x => calm_write_old (plainPath_keyPath hroot hname) (by exact hget) x
  refine hgen.bind hmid hw fun hw => ?_
  refine lift_kept hmid hw (fun _ => ⟨hw, by simp⟩) fun _ _ => ?_
  refine lift_kept hmid hw (fun _ => ⟨hw, by simp⟩) fun _ _ => ?_
  refine then_kept (writeKey_kept hmid (plainPath_keyPath hroot hname) _ hw (Or.inl (hcalm _)))
    (fun _ _ h => ⟨h.1, by simp⟩) fun _ v hv => ?_
  -- from here on the mode stays as it was set
  have hrest : ∀ u, NoneExposed root v u → Mid u := fun u hu => hmid u (hv.1.trans hu)
  refine then_kept (setKeys_kept hrest lawful hroot (.refl v) _ _ _)
    (fun _ u hu => ⟨hv.1.trans hu, by simp⟩) fun _ u hu => ?_
  exact ⟨hrest u hu, hv.1.trans hu, fun _ _ hsets h => hv.2 _ rfl hsets (hu name h)⟩

/-- Only an `add` that sets the mode by a call of its own opens a window. -/
theorem performWith_kept {removeFiles : PathName → Prog Cmd Ans ε Unit}
    (hfiles : ∀ p w, NoneExposed root first w →
      (removeFiles p).Sat (Moded.semantics supply create) w Mid fun _ v => NoneExposed root first v)
    (call : Call) (hkey : (∀ key, (create (.key key)).Private) ∨
      kit.setsMode = true ∧ ∀ name v, call = .addService name → Window root first name v → Mid v) :
    (performWith kit removeFiles root call).Sat (Moded.semantics supply create) first Mid
      (Settled root kit.setsMode call first) := by
  have hstart : NoneExposed root first first := .refl first
  cases call with
  | initRoot td =>
    change (initRootWith kit root td).Sat _ _ _ _
    unfold initRootWith
    rw [join_bundle lawful hroot, join_services lawful hroot]
    have hpresent : Calm root create (.present (bundlePath root)) first.disk :=
      calm_of_not_makes rfl _
    refine hpresent.bind hmid hstart fun hw => ?_
    split_ifs
    · exact ⟨hmid _ hw, hw, by simp⟩
    · refine (calm_mkdirs (hroot.append (plainPath_singleton plain_servicesDirname)) _).bind hmid hw
        fun hw => ?_
      refine lift_kept hmid hw (fun _ => ⟨hw, by simp⟩) fun _ _ => ?_
      exact (writeBundle_kept hmid hroot hw _).mono (fun _ h => h) fun _ _ _ h => ⟨h, by simp⟩
  | addService name =>
    refine then_kept (Q := fun _ v => NoneExposed root first v) ?_ (fun _ _ h => ⟨h, by simp⟩)
      fun _ _ h => ⟨hmid _ h, h, by simp⟩
    refine readBundle_kept hmid hstart (fun _ => hstart) fun b => ?_
    refine lift_kept hmid hstart (fun _ => hstart) fun id hid => ?_
    have hname : PlainPath (splitSlash name) :=
      plain_of_isServiceName ⟨id, (lawful.parseId_ok _ _).mp hid⟩
    dsimp only
    rw [join_service lawful hroot hname]
    have hpresent : ∀ p, Calm root create (.present p) first.disk :=
      fun p => calm_of_not_makes rfl _
    refine (hpresent _).bind hmid hstart fun hw => ?_
    split_ifs
    · exact ⟨hmid _ hw, hw⟩
    · refine provision_kept hmid lawful hroot hw b id hname ?_
      exact hkey.imp_right fun h => ⟨h.1, fun v hv => h.2 name v rfl hv⟩
  | rotateService name keepOld =>
    refine then_kept (Q := fun r v => NoneExposed root first v ∧
      ∀ b, r = .ok b → kit.setsMode = true → ¬ Exposed root v name) ?_
      (fun _ _ h => ⟨h.1, by simp⟩) fun b v h => ⟨hmid _ h.1, h.1, ?_⟩
    · refine readBundle_kept hmid hstart (fun _ => ⟨hstart, by simp⟩) fun b => ?_
      refine lift_kept hmid hstart (fun _ => ⟨hstart, by simp⟩) fun id hid => ?_
      have hname : PlainPath (splitSlash name) :=
        plain_of_isServiceName ⟨id, (lawful.parseId_ok _ _).mp hid⟩
      dsimp only
      rw [join_service_key lawful hroot hname]
      have hpresent : Calm root create (.present (keyPath root name)) first.disk :=
        calm_of_not_makes rfl _
      refine hpresent.bind hmid hstart fun hw => ?_
      split_ifs with hthere
      · have hsome : (first.disk.tree.get (keyPath root name)).isSome = true := by
          rw [← Volume.present_plain (plainPath_keyPath hroot hname)]
          exact hthere
        obtain ⟨n, hget⟩ := Option.isSome_iff_exists.mp hsome
        exact renew_kept hmid lawful hroot hw b id hname hget keepOld
      · exact ⟨hmid _ hw, hw, fun _ h => by cases h⟩
    · intro name' keepOld' hcall _ hsets
      cases hcall
      exact h.2 b rfl hsets
  | removeService name =>
    refine readBundle_kept hmid hstart (fun _ => ⟨hstart, by simp⟩) fun b => ?_
    rw [join_bundle lawful hroot]
    refine then_kept (writeBundle_kept hmid hroot hstart _) (fun _ _ h => ⟨h, by simp⟩) fun _ v hv => ?_
    exact (hfiles _ v hv).mono (fun _ h => h) fun _ _ _ h => ⟨h, by simp⟩

end

section

variable {supply : ℕ → Point} {create : Content → Mode} {root : PathName} {first w : Moded}
  {Mid : Moded → Prop} (hmid : ∀ v, NoneExposed root first v → Mid v)

include hmid

theorem removeAll_kept {ε : Type} (p : PathName) (lenient : Bool) (raised : Errno → ε)
    (hw : NoneExposed root first w) :
    (do
      let done ← removeAll p lenient
      check raised done : Prog Cmd Ans ε Unit).Sat (Moded.semantics supply create) w Mid
        fun _ v => NoneExposed root first v := by
  have hcalm : Calm root create (.removeAll p lenient) w.disk := calm_of_not_makes rfl _
  exact hcalm.bind hmid hw fun hv => ⟨hmid _ hv, hv⟩

theorem unlinkMissingOk_kept (p : PathName) (hw : NoneExposed root first w) :
    (Py.unlinkMissingOk p).Sat (Moded.semantics supply create) w Mid
      fun _ v => NoneExposed root first v := by
  unfold Py.unlinkMissingOk
  have hcalm : Calm root create (.unlink p) w.disk := calm_of_not_makes rfl _
  refine hcalm.bind hmid hw fun hv => ?_
  split
  · exact ⟨hmid _ hv, hv⟩
  · exact ⟨hmid _ hv, hv⟩
  · exact ⟨hmid _ hv, hv⟩

theorem py_removeFiles_kept (p : PathName) (hw : NoneExposed root first w) :
    (Py.removeFiles p).Sat (Moded.semantics supply create) w Mid
      fun _ v => NoneExposed root first v := by
  unfold Py.removeFiles
  refine then_kept (unlinkMissingOk_kept hmid _ hw) (fun _ _ h => h) fun _ v hv => ?_
  refine then_kept (unlinkMissingOk_kept hmid _ hv) (fun _ _ h => h) fun _ u hu => ?_
  have hpresent : Calm root create (.present p) u.disk := calm_of_not_makes rfl _
  refine hpresent.bind hmid hu fun hu => ?_
  split_ifs
  · have hrmdir : ∀ t, Calm root create (.rmdir p) t := calm_of_not_makes rfl
    exact (hrmdir _).bind hmid hu fun ht => ⟨hmid _ ht, ht⟩
  · exact ⟨hmid _ hu, hu⟩

end

/-! ### Calls -/

section

variable (rt : Runtime) (supply : ℕ → Point) (root : PathName) (umask : Mode) (call : Call)

namespace Impl

/-- The call, started in `w`, passes through `v`, or stops there. -/
def Reaches (w v : Moded) : Impl → Prop
  | python =>
    (Py.perform rt root call).Visits (Moded.semantics supply (createMode umask python)) w v
  | typescript =>
    (Ts.perform rt root call).Visits (Moded.semantics supply (createMode umask typescript)) w v
  | go => (Go.perform rt root call).Visits (Moded.semantics supply (createMode umask go)) w v

/-- Whether the call returned, and what it left. -/
def ending (w : Moded) : Impl → Bool × Moded
  | python =>
    let r := (Py.perform rt root call).run (Moded.semantics supply (createMode umask python)) w
    (r.1.isOk, r.2)
  | typescript =>
    let r := (Ts.perform rt root call).run (Moded.semantics supply (createMode umask typescript)) w
    (r.1.isOk, r.2)
  | go =>
    let r := (Go.perform rt root call).run (Moded.semantics supply (createMode umask go)) w
    (r.1.isOk, r.2)

end Impl

end

section

variable {rt : Runtime} {supply : ℕ → Point} {root : PathName} {umask : Mode} {call : Call}

theorem Impl.reaches_ending (impl : Impl) (w : Moded) :
    impl.Reaches rt supply root umask call w (impl.ending rt supply root umask call w).2 := by
  cases impl with
  | python => exact Prog.visits_end _ _
  | typescript => exact Prog.visits_end _ _
  | go => exact Prog.visits_end _ _

/-- Without the modes it is a call on the disk. -/
theorem Impl.Reaches.visits {impl : Impl} {w v : Moded}
    (h : impl.Reaches rt supply root umask call w v) :
    impl.Visits rt supply root call w.disk v.disk := by
  cases impl with
  | python => exact (Moded.extends_disk supply _).visits h
  | typescript => exact (Moded.extends_disk supply _).visits h
  | go => exact (Moded.extends_disk supply _).visits h

/-- Every call on the disk is one with modes. -/
theorem Impl.exists_reaches {impl : Impl} {w : Moded} {t : Disk}
    (h : impl.Visits rt supply root call w.disk t) (umask : Mode) :
    ∃ v, v.disk = t ∧ impl.Reaches rt supply root umask call w v := by
  cases impl with
  | python => exact (Moded.extends_disk supply _).visits_lift h
  | typescript => exact (Moded.extends_disk supply _).visits_lift h
  | go => exact (Moded.extends_disk supply _).visits_lift h

theorem private_go_key (key : Point) : (Impl.go.createMode umask (.key key)).Private :=
  private_keyMode.mask _

/-- What a call may expose: nothing if it opens key files privately, and else the
key it adds, until it ends. -/
theorem Impl.kept (hroot : PlainPath root) (impl : Impl) (first : Moded) {Mid : Moded → Prop}
    (hmid : ∀ v, NoneExposed root first v → Mid v)
    (hkey : (∀ key, (impl.createMode umask (.key key)).Private) ∨
      impl.setsMode = true ∧
        ∀ name v, call = .addService name → Window root first name v → Mid v) :
    (∀ v, impl.Reaches rt supply root umask call first v → Mid v) ∧
      NoneExposed root first (impl.ending rt supply root umask call first).2 ∧
      ∀ name keepOld, call = .rotateService name keepOld →
        (impl.ending rt supply root umask call first).1 = true → impl.setsMode = true →
        ¬ Exposed root (impl.ending rt supply root umask call first).2 name := by
  have hok : ∀ {ε : Type} {r : Except ε Unit}, r.isOk = true → r = .ok () := by
    intro ε r h
    cases r with
    | ok _ => rfl
    | error _ => cases h
  cases impl with
  | python =>
    have hsat : (Py.perform rt root call).Sat (Moded.semantics supply (createMode umask python))
        first Mid (Settled root true call first) := by
      rw [Py.perform_eq]
      exact performWith_kept hmid (Py.kit_lawful rt) hroot
        (fun p w hw => py_removeFiles_kept hmid p hw) call (hkey.imp_right fun h => ⟨rfl, h.2⟩)
    obtain ⟨hvisits, hend⟩ := (Prog.sat_iff _ _ _ _).mp hsat
    exact ⟨hvisits, hend.kept, fun name keepOld hc hr _ => hend.closed name keepOld hc (hok hr) rfl⟩
  | typescript =>
    have hsat : (Ts.perform rt root call).Sat (Moded.semantics supply (createMode umask typescript))
        first Mid (Settled root true call first) := by
      rw [Ts.perform_eq]
      exact performWith_kept hmid (Ts.kit_lawful rt) hroot
        (fun p w hw => removeAll_kept hmid p rt.lenient Ts.raised hw) call
        (hkey.imp_right fun h => ⟨rfl, h.2⟩)
    obtain ⟨hvisits, hend⟩ := (Prog.sat_iff _ _ _ _).mp hsat
    exact ⟨hvisits, hend.kept, fun name keepOld hc hr _ => hend.closed name keepOld hc (hok hr) rfl⟩
  | go =>
    have hsat : (Go.perform rt root call).Sat (Moded.semantics supply (createMode umask go))
        first Mid (Settled root false call first) := by
      rw [Go.perform_eq]
      exact performWith_kept hmid (Go.kit_lawful rt) hroot
        (fun p w hw => removeAll_kept hmid p false _ hw) call (Or.inl private_go_key)
    obtain ⟨hvisits, hend⟩ := (Prog.sat_iff _ _ _ _).mp hsat
    exact ⟨hvisits, hend.kept, fun _ _ _ _ hsets => by cases hsets⟩

end

/-! ### Keys at rest -/

section

variable (rt : Runtime) (supply : ℕ → Point) (root : PathName)

/-- The call comes to its end, with a value or an error. It may also stop on the
way if it opens key files with their mode. -/
def Settles (w v : Moded) : Prop :=
  ∃ (impl : Impl) (call : Call) (umask : Mode),
    v = (impl.ending rt supply root umask call w).2 ∨
      impl.setsMode = false ∧ impl.Reaches rt supply root umask call w v

def SettledRun : Moded → Moded → Prop := Relation.ReflTransGen (Settles rt supply root)

end

section

variable {rt : Runtime} {supply : ℕ → Point} {root : PathName} {w v : Moded}

theorem private_of_opens {impl : Impl} (h : impl.setsMode = false) (umask : Mode) (key : Point) :
    (impl.createMode umask (.key key)).Private := by
  cases impl with
  | go => exact private_go_key key
  | _ => cases h

theorem Settles.kept (hroot : PlainPath root) (h : Settles rt supply root w v) :
    NoneExposed root w v := by
  obtain ⟨impl, call, umask, rfl | ⟨hsets, hv⟩⟩ := h
  · have htrue : ∀ v, NoneExposed root w v → True := fun _ _ => trivial
    cases hsets : impl.setsMode with
    | true => exact (Impl.kept hroot impl w htrue (Or.inr ⟨hsets, fun _ _ _ _ => trivial⟩)).2.1
    | false => exact (Impl.kept hroot impl w htrue (Or.inl (private_of_opens hsets umask))).2.1
  · exact (Impl.kept hroot impl w (fun _ h => h) (Or.inl (private_of_opens hsets umask))).1 v hv

theorem Settles.visits (h : Settles rt supply root w v) :
    ∃ c : Impl × Call, c.1.Visits rt supply root c.2 w.disk v.disk := by
  obtain ⟨impl, call, umask, rfl | ⟨-, hv⟩⟩ := h
  · exact ⟨(impl, call), (impl.reaches_ending w).visits⟩
  · exact ⟨(impl, call), hv.visits⟩

theorem SettledRun.kept (hroot : PlainPath root) (h : SettledRun rt supply root w v) :
    NoneExposed root w v := by
  induction h with
  | refl => exact .refl w
  | tail _ hlast ih => exact ih.trans (hlast.kept hroot)

theorem SettledRun.run (h : SettledRun rt supply root w v) : Run rt supply root w.disk v.disk := by
  induction h with
  | refl => exact .refl
  | tail _ hlast ih => exact ih.tail hlast.visits

end

/-- Between the calls a private key that was put on the disk can be opened by its
owner alone, whatever the umasks are, and with Go also where a call stops on the
way. -/
theorem keys_private_at_rest (rt : Runtime) (supply : ℕ → Point) (root : PathName)
    (hroot : PlainPath root) (first last : Moded)
    (hfresh : first.disk.tree.get (bundlePath root) = none)
    (hclosed : ∀ name, ¬ Exposed root first name) (hrun : SettledRun rt supply root first last)
    (q : PathName) (k : Point) (hk : last.disk.tree.get q = some (.file (.key k)))
    (hnew : first.disk.tree.get q ≠ some (.file (.key k))) : (last.mode q).Private := by
  obtain ⟨owner, hcustody⟩ := (Custody.fresh (fun _ => "") hfresh).run hroot hrun.run
  obtain ⟨i, -, -, hq⟩ := (hcustody.held q k hk).resolve_left hnew
  by_contra hpublic
  subst hq
  exact hclosed (owner i) (hrun.kept hroot (owner i) ⟨⟨_, hk⟩, hpublic⟩)

namespace Sample

def bare : Moded := ⟨emptyDisk, fun _ => 0⟩

/-- What a call of the TypeScript implementation leaves. -/
def leftBy (call : Call) (w : Moded) : Moded :=
  (Impl.typescript.ending runtime supply root 0o022#9 call w).2

theorem settledRun_leftBy (call : Call) (w : Moded) :
    SettledRun runtime supply root w (leftBy call w) :=
  .single ⟨.typescript, call, 0o022#9, Or.inl rfl⟩

end Sample

theorem keys_private_at_rest_sample :
    ((Sample.leftBy (.addService "x") (Sample.leftBy (.initRoot "a.b") Sample.bare)).mode
      (keyPath Sample.root "x")).Private := by
  have hget : ∀ p n, Sample.bare.disk.tree.get p ≠ some (.file n) := by
    intro p n hp
    have h' := AList.mem_lookup_iff.mp hp
    simp [Sample.bare, Sample.emptyDisk, Sample.emptyVolume] at h'
  refine keys_private_at_rest Sample.runtime Sample.supply Sample.root Sample.plain_root Sample.bare
    _ rfl (fun name h => ?_)
    ((Sample.settledRun_leftBy _ _).trans (Sample.settledRun_leftBy _ _))
    (keyPath Sample.root "x") Sample.basePoint rfl (hget _ _)
  obtain ⟨⟨x, hx⟩, -⟩ := h
  exact hget _ x hx

end Spiffile
