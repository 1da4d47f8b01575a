import Spiffile.LiveIdentity

/-!
# Signers and rotation

The key source of a process follows the key file, so that a service goes on with
its new key after a rotation. A call writes no private key but one it has
generated itself; whatever the tools do later, also where they stop on the way, no
older key returns to the file.
-/

namespace Spiffile

open FileTree

/-! ### Written keys are new -/

/-- A command that makes directories along a plain path, and writes no private key
that is older than the `g`-th. -/
structure WritesNew (supply : ℕ → Point) (g : ℕ) (c : Cmd) (u : Disk) : Prop where
  plain : ∀ p, c = .mkdirs p → PlainPath p
  key : ∀ p k, c = .write p (.key k) → ∃ i, g ≤ i ∧ i < u.generated ∧ k = supply i

/-- A private key was there at first, or has been generated since. -/
structure KeysSince (supply : ℕ → Point) (first s : Disk) : Prop where
  counted : first.generated ≤ s.generated
  held : ∀ q k, s.tree.get q = some (.file (.key k)) → first.tree.get q = some (.file (.key k)) ∨
    ∃ i, first.generated ≤ i ∧ i < s.generated ∧ k = supply i

section

variable {supply : ℕ → Point} {g : ℕ}

theorem KeysSince.refl (s : Disk) : KeysSince supply s s := ⟨le_refl _, fun _ _ hk => Or.inl hk⟩

/-- What such a command keeps, also where it is cut short. -/
theorem KeysSince.step {first u t : Disk} (h : KeysSince supply first u) {c : Cmd}
    (hc : WritesNew supply first.generated c u)
    (ht : t = (Disk.step supply c u).2 ∨ Disk.Torn c u t) : KeysSince supply first t := by
  have hle := generated_le_step ht
  refine ⟨h.counted.trans hle, fun q k hk => ?_⟩
  rcases content_of_step hc.plain ht (by simp) hk with hold | ⟨p, hwrite, -⟩
  · rcases h.held q k hold with hfirst | ⟨i, hg, hi, hki⟩
    · exact Or.inl hfirst
    · exact Or.inr ⟨i, hg, hi.trans_le hle, hki⟩
  · obtain ⟨i, hg, hi, hki⟩ := hc.key p k hwrite
    exact Or.inr ⟨i, hg, hi.trans_le hle, hki⟩

theorem writesNew_of_not_makes {c : Cmd} {u : Disk} (h : c.makes = false) :
    WritesNew supply g c u where
  plain p hc := by rw [hc] at h; cases h
  key p k hc := by rw [hc] at h; cases h

theorem writesNew_mkdirs {p : PathName} (hp : PlainPath p) (u : Disk) :
    WritesNew supply g (.mkdirs p) u where
  plain q hc := by cases hc; exact hp
  key q k hc := by cases hc

theorem writesNew_other {x : Content} (hx : ∀ k, x ≠ .key k) (p : PathName) (u : Disk) :
    WritesNew supply g (.write p x) u where
  plain q hc := by cases hc
  key q k hc := by
    cases hc
    exact absurd rfl (hx k)

theorem writesNew_key {i : ℕ} {u : Disk} (hg : g ≤ i) (hi : i < u.generated) (p : PathName) :
    WritesNew supply g (.write p (.key (supply i))) u where
  plain q hc := by cases hc
  key q k hc := by cases hc; exact ⟨i, hg, hi, rfl⟩

/-- A program all of whose commands are such. -/
def NewKeysProg (supply : ℕ → Point) (g : ℕ) {ε α : Type} (p : Prog Cmd Ans ε α) (u : Disk) : Prop :=
  p.Guarded (Disk.semantics supply) (WritesNew supply g) u fun _ _ => True

theorem WritesNew.bind {ε α : Type} {c : Cmd} {u : Disk} (hc : WritesNew supply g c u)
    {f : Ans c → Prog Cmd Ans ε α}
    (hf : NewKeysProg supply g (f (Disk.step supply c u).1) (Disk.step supply c u).2) :
    NewKeysProg supply g (Prog.exec c >>= f) u :=
  (Prog.guarded_exec_bind c f u _).mpr ⟨hc, hf⟩

theorem lift_newKeys {ε α β : Type} {r : Except ε β} {f : β → Prog Cmd Ans ε α} {u : Disk}
    (hf : ∀ b, r = .ok b → NewKeysProg supply g (f b) u) :
    NewKeysProg supply g (Prog.lift r >>= f) u :=
  Prog.guarded_lift_bind (fun _ => trivial) hf

theorem then_newKeys {ε α β : Type} {p : Prog Cmd Ans ε β} {f : β → Prog Cmd Ans ε α} {u : Disk}
    (hp : NewKeysProg supply g p u) (hf : ∀ b v, NewKeysProg supply g (f b) v) :
    NewKeysProg supply g (p >>= f) u :=
  Prog.guarded_then hp fun b v _ => hf b v

end

/-! ### Each function writes new keys only -/

section

variable {ε τ κ α : Type} {kit : Kit ε τ κ} {sha256 : Hash} {supply : ℕ → Point} {root : PathName}
  {g : ℕ} {u : Disk}

theorem writeBundle_newKeys (p : PathName) (b : Bundle τ) :
    NewKeysProg supply g (writeBundleWith kit p b) u :=
  (writesNew_other (x := .json (kit.serialise b)) (by simp) p u).bind trivial

theorem readBundle_newKeys {f : Bundle τ → Prog Cmd Ans ε α}
    (hf : ∀ b, NewKeysProg supply g (f b) u) :
    NewKeysProg supply g (readBundleWith kit root >>= f) u := by
  refine (writesNew_of_not_makes (c := .read (kit.join root [bundleFilename])) rfl).bind ?_
  exact lift_newKeys fun b _ => hf b

theorem writeKey_newKeys {i : ℕ} (hg : g ≤ i) (hi : i < u.generated) (p : PathName) :
    NewKeysProg supply g (writeKeyWith kit p (supply i)) u := by
  unfold writeKeyWith
  refine (writesNew_key hg hi p).bind ?_
  refine lift_newKeys fun _ _ => ?_
  split_ifs
  · exact (writesNew_of_not_makes (c := .chmod p) rfl).bind trivial
  · trivial

theorem renew_newKeys (hg : g ≤ u.generated) (b : Bundle τ) (id : SpiffeId) (p : PathName)
    (keepOld : Bool) : NewKeysProg supply g (renewWith kit root b id p keepOld) u := by
  unfold renewWith
  refine (writesNew_of_not_makes (c := .generateKey) rfl).bind ?_
  refine lift_newKeys fun _ _ => ?_
  refine lift_newKeys fun _ _ => ?_
  refine then_newKeys (writeKey_newKeys hg (Nat.lt_succ_self u.generated) p) fun _ _ => ?_
  exact then_newKeys (writeBundle_newKeys _ _) fun _ _ => trivial

variable (lawful : kit.Lawful sha256) (hroot : PlainPath root)

include lawful hroot

theorem provision_newKeys (hg : g ≤ u.generated) (b : Bundle τ) (id : SpiffeId) {name : String}
    (hname : PlainPath (splitSlash name)) :
    NewKeysProg supply g (provisionWith kit root b id (serviceDir root name)) u := by
  unfold provisionWith
  rw [join_key lawful hroot hname]
  refine (writesNew_mkdirs (plainPath_serviceDir hroot hname) u).bind ?_
  refine lift_newKeys fun _ _ => ?_
  refine (writesNew_of_not_makes (c := .generateKey) rfl).bind ?_
  refine then_newKeys (writeKey_newKeys hg (Nat.lt_succ_self u.generated) _) fun _ v => ?_
  refine (writesNew_other (x := .text _) (by simp) _ v).bind ?_
  refine lift_newKeys fun _ _ => ?_
  refine lift_newKeys fun _ _ => ?_
  exact then_newKeys (writeBundle_newKeys _ _) fun _ _ => trivial

theorem performWith_newKeys {removeFiles : PathName → Prog Cmd Ans ε Unit}
    (hfiles : ∀ p v, NewKeysProg supply g (removeFiles p) v) (hg : g ≤ u.generated) (call : Call) :
    NewKeysProg supply g (performWith kit removeFiles root call) u := by
  cases call with
  | initRoot td =>
    change NewKeysProg _ _ (initRootWith kit root td) u
    unfold initRootWith
    rw [join_services lawful hroot]
    refine (writesNew_of_not_makes (c := .present _) rfl).bind ?_
    split_ifs
    · trivial
    · refine (writesNew_mkdirs (hroot.append (plainPath_singleton plain_servicesDirname)) _).bind ?_
      exact lift_newKeys fun _ _ => writeBundle_newKeys _ _
  | addService name =>
    refine then_newKeys ?_ fun _ _ => trivial
    refine readBundle_newKeys fun b => ?_
    refine lift_newKeys fun id hid => ?_
    have hname : PlainPath (splitSlash name) :=
      plain_of_isServiceName ⟨id, (lawful.parseId_ok _ _).mp hid⟩
    dsimp only
    rw [join_service lawful hroot hname]
    refine (writesNew_of_not_makes (c := .present _) rfl).bind ?_
    split_ifs
    · trivial
    · exact provision_newKeys lawful hroot hg b id hname
  | rotateService name keepOld =>
    refine then_newKeys ?_ fun _ _ => trivial
    refine readBundle_newKeys fun b => ?_
    refine lift_newKeys fun id _ => ?_
    dsimp only
    refine (writesNew_of_not_makes (c := .present _) rfl).bind ?_
    split_ifs
    · exact renew_newKeys hg b id _ keepOld
    · trivial
  | removeService name =>
    refine readBundle_newKeys fun b => ?_
    exact then_newKeys (writeBundle_newKeys _ _) fun _ v => hfiles _ v

end

section

variable {supply : ℕ → Point} {g : ℕ}

theorem unlinkMissingOk_newKeys (p : PathName) (u : Disk) :
    NewKeysProg supply g (Py.unlinkMissingOk p) u := by
  unfold Py.unlinkMissingOk
  refine (writesNew_of_not_makes (c := .unlink p) rfl).bind ?_
  split
  · trivial
  · trivial
  · trivial

theorem py_removeFiles_newKeys (p : PathName) (u : Disk) :
    NewKeysProg supply g (Py.removeFiles p) u := by
  unfold Py.removeFiles
  refine then_newKeys (unlinkMissingOk_newKeys _ u) fun _ v => ?_
  refine then_newKeys (unlinkMissingOk_newKeys _ v) fun _ w => ?_
  refine (writesNew_of_not_makes (c := .present p) rfl).bind ?_
  split_ifs
  · exact (writesNew_of_not_makes (c := .rmdir p) rfl).bind trivial
  · trivial

theorem removeAll_newKeys {ε : Type} (p : PathName) (lenient : Bool) (raised : Errno → ε) (u : Disk) :
    NewKeysProg supply g (do
      let done ← removeAll p lenient
      check raised done : Prog Cmd Ans ε Unit) u :=
  (writesNew_of_not_makes (c := .removeAll p lenient) rfl).bind trivial

end

section

variable {rt : Runtime} {supply : ℕ → Point} {root : PathName} (hroot : PlainPath root)

include hroot

/-- Whatever state a call visits. -/
theorem KeysSince.visits {impl : Impl} {call : Call} {first s t : Disk}
    (h : KeysSince supply first s) (hv : impl.Visits rt supply root call s t) :
    KeysSince supply first t := by
  have hstep : ∀ c u t, KeysSince supply first u → WritesNew supply first.generated c u →
      (t = ((Disk.semantics supply).step c u).2 ∨ (Disk.semantics supply).Torn c u t) →
      KeysSince supply first t :=
    fun _ _ _ hu hc ht => hu.step hc ht
  cases impl with
  | python =>
    rw [Impl.Visits, Py.perform_eq] at hv
    exact (performWith_newKeys (Py.kit_lawful rt) hroot py_removeFiles_newKeys h.counted call).visits
      hstep h hv
  | typescript =>
    rw [Impl.Visits, Ts.perform_eq] at hv
    exact (performWith_newKeys (Ts.kit_lawful rt) hroot
      (fun p v => removeAll_newKeys p rt.lenient Ts.raised v) h.counted call).visits hstep h hv
  | go =>
    rw [Impl.Visits, Go.perform_eq] at hv
    exact (performWith_newKeys (Go.kit_lawful rt) hroot
      (fun p v => removeAll_newKeys p false _ v) h.counted call).visits hstep h hv

theorem KeysSince.run {first s t : Disk} (h : KeysSince supply first s)
    (hrun : Run rt supply root s t) : KeysSince supply first t :=
  Prog.invariant_of_calls (R := fun (c : Impl × Call) s t => c.1.Visits rt supply root c.2 s t)
    (fun _ _ _ hs hv => hs.visits hroot hv) h hrun

/-- After a rotation the key file holds the key that it generated. -/
theorem Impl.Returns.rotated_key {name : String} {keepOld : Bool} {impl : Impl} {s t : Disk}
    (hret : impl.Returns rt supply root (.rotateService name keepOld) s t) :
    PlainPath (keyPath root name) ∧ t.generated = s.generated + 1 ∧
      t.tree.get (keyPath root name) = some (.file (.key (supply s.generated))) := by
  refine hret.performed fun kit removeFiles lawful h => ?_
  obtain ⟨r, h⟩ := discard_returns h
  obtain ⟨b, -, hname, hrenewed⟩ := rotateService_returns hroot lawful h
  obtain ⟨k, others, -, -, hnodes⟩ := hrenewed.nodes
  refine ⟨plainPath_keyPath hroot (plain_of_isServiceName hname), hrenewed.generated, ?_⟩
  rw [hnodes, if_neg (keyPath_ne_bundlePath root name), if_pos rfl]

end

namespace Sample

/-- The disk after a rotation of the only service. -/
def renewed : Disk := after (.rotateService "x" true) registered

theorem renewed_returns : Impl.typescript.Returns runtime supply root (.rotateService "x" true)
    registered renewed := returns_after rfl

/-- What the process makes of the new key. -/
def renewedOutcome : Option String :=
  (Ts.tokenWith ownLibs.node xIdentity.id (Ts.keyIn baseDigest (some (.key secondPoint))) 0
    xIdentity.id.toString 60).toOption

theorem renewed_mints : Impl.typescript.Mints ownLibs (fun _ => fileAt renewed (keyPath root "x")) 0 0
    xIdentity.id 0 xIdentity.id.toString 60 renewedOutcome := by
  have hat : fileAt renewed (keyPath root "x") = some (.key secondPoint) := rfl
  simp only [hat]
  exact ⟨numbers, _, untouched_found _ (0, 241) _, rfl⟩

end Sample

end Spiffile
