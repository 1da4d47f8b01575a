import Spiffile.Completion
import Spiffile.Revocation

/-!
# The window in a rotation

A rotation writes the key file first and the bundle second. In between the
service signs with a key that no bundle binds, whatever the root and the
service.
-/

namespace Spiffile

open FileTree

section

variable (rt : Runtime) (supply : ℕ → Point) (root : PathName)

/-- The call passes through `t` between two of its whole steps. -/
def Impl.Passes (call : Call) (s t : Disk) : Impl → Prop
  | python => (Py.perform rt root call).Visits (Disk.semantics supply).atomic s t
  | typescript => (Ts.perform rt root call).Visits (Disk.semantics supply).atomic s t
  | go => (Go.perform rt root call).Visits (Disk.semantics supply).atomic s t

end

/-- The public key of the key file is bound to the name, for every reader. -/
def LiveKeyBound (root : PathName) (td name : String) (s : Disk) : Prop :=
  ∀ p, s.tree.get (keyPath root name) = some (.file (.key p)) →
    ∀ reader : Impl, reader.BindsKey (bundleFile root s) (serviceId td name) p

/-- At every step of the rotation the live key is bound. -/
def Impl.NoWindow (rt : Runtime) (supply : ℕ → Point) (root : PathName) (td name : String)
    (s : Disk) (impl : Impl) : Prop :=
  ∀ t, impl.Passes rt supply root (.rotateService name true) s t → LiveKeyBound root td name t

/-- A service that can be rotated: its ID is one, and its key file is there. -/
structure Registered (root : PathName) (s : Disk) (td name : String) : Prop where
  domain : trustDomainAt root s = some td
  name_ok : IsServiceName td name
  key : ∃ c, s.tree.get (keyPath root name) = some (.file c)

section

variable {sha256 : Hash} {supply : ℕ → Point} {root : PathName} (hroot : PlainPath root)

include hroot

variable {ε τ κ : Type} {kit : Kit ε τ κ} (lawful : kit.Lawful sha256)

include lawful

/-- The run up to the write of the key file. -/
theorem rotate_passes_key_write {R : String → ℕ → Prop} {c₀ : ℕ} {s : Disk} {td name : String}
    (h : Sound sha256 supply root R c₀ s) (hreg : Registered root s td name) :
    s.tree.Puttable (keyPath root name) ∧
      (rotateServiceWith kit root name true).Visits (Disk.semantics supply).atomic s
        ⟨s.tree.put (keyPath root name) (.file (.key (supply s.generated))), s.generated + 1⟩ := by
  obtain ⟨ids, hget, hl⟩ := doc_of_trustDomainAt hroot h hreg.domain
  obtain ⟨id, hid⟩ := hreg.name_ok
  have hname : PlainPath (splitSlash name) := plain_of_isServiceName ⟨id, hid⟩
  have hkeyPlain := plainPath_keyPath hroot hname
  obtain ⟨c, hkey⟩ := hreg.key
  have hput : s.tree.Puttable (keyPath root name) := Volume.puttable_of_file hkey
  refine ⟨hput, ?_⟩
  obtain ⟨b, hfrom, hread⟩ := readBundle_completes hroot lawful supply hget
  obtain ⟨k, hk, -, -⟩ := lawful.publicJwk_ok (supply s.generated)
  obtain ⟨-, hothers⟩ := jwk_of_generated lawful hk
  have hold : ∃ is : List ℕ, (b.identities.lookup id.toString).getD [] =
      is.map (jwkAt sha256 supply) := by
    cases hlook : b.identities.lookup id.toString with
    | none => exact ⟨[], rfl⟩
    | some keys =>
      obtain ⟨is, hkeys, -⟩ := hl.readFrom hfrom _ _ hlook
      exact ⟨is, hkeys⟩
  obtain ⟨is, his⟩ := hold
  unfold rotateServiceWith
  refine Prog.visits_bind_right hread.atomic ?_
  refine Prog.visits_bind_right (Prog.returns_lift.mpr
    ⟨(lawful.parseId_ok _ _).mpr (hfrom.text ▸ hid), rfl⟩) ?_
  dsimp only
  rw [join_service_key lawful hroot hname]
  refine Prog.visits_bind_right (Prog.returns_exec.mpr ⟨rfl, rfl⟩) ?_
  have hthere : ((Disk.semantics supply).atomic.step (.present (keyPath root name)) s).1 = true := by
    change s.tree.present (keyPath root name) = true
    rw [Volume.present_plain hkeyPlain, hkey]
    rfl
  rw [if_pos hthere]
  unfold renewWith
  refine Prog.visits_bind_right (Prog.returns_exec.mpr ⟨rfl, rfl⟩) ?_
  refine Prog.visits_bind_right (Prog.returns_lift.mpr ⟨hk, rfl⟩) ?_
  rw [if_pos rfl, his]
  refine Prog.visits_bind_right (Prog.returns_lift.mpr ⟨hothers is, rfl⟩) ?_
  refine (Prog.visits_bind _ _ _ _).mpr (Or.inl ?_)
  unfold writeKeyWith
  refine Prog.visits_bind_right (Prog.returns_exec.mpr ⟨rfl, rfl⟩) ?_
  have hafter : ((Disk.semantics supply).atomic.step (.write (keyPath root name)
      (.key (supply s.generated))) ⟨s.tree, s.generated + 1⟩).2 =
        ⟨s.tree.put (keyPath root name) (.file (.key (supply s.generated))), s.generated + 1⟩ := by
    have hstep := write_step supply hkeyPlain (c := .key (supply s.generated))
      (s := ⟨s.tree, s.generated + 1⟩) hput
    exact congrArg Prod.snd hstep
  rw [← hafter]
  exact Prog.visits_start _ _

end

theorem Impl.passes_key_write {rt : Runtime} {supply : ℕ → Point} {root : PathName}
    (hroot : PlainPath root) {R : String → ℕ → Prop} {c₀ : ℕ} {s : Disk} {td name : String}
    (h : Sound rt.sha256 supply root R c₀ s) (hreg : Registered root s td name) (impl : Impl) :
    s.tree.Puttable (keyPath root name) ∧
      impl.Passes rt supply root (.rotateService name true) s
        ⟨s.tree.put (keyPath root name) (.file (.key (supply s.generated))), s.generated + 1⟩ := by
  cases impl with
  | python =>
    obtain ⟨hput, hvisits⟩ := rotate_passes_key_write hroot (Py.kit_lawful rt) h hreg
    exact ⟨hput, (Prog.visits_bind _ _ _ _).mpr (Or.inl hvisits)⟩
  | typescript =>
    obtain ⟨hput, hvisits⟩ := rotate_passes_key_write hroot (Ts.kit_lawful rt) h hreg
    exact ⟨hput, (Prog.visits_bind _ _ _ _).mpr (Or.inl hvisits)⟩
  | go =>
    obtain ⟨hput, hvisits⟩ := rotate_passes_key_write hroot (Go.kit_lawful rt) h hreg
    exact ⟨hput, (Prog.visits_bind _ _ _ _).mpr (Or.inl hvisits)⟩

/-- Between the two writes the new key is live and no reader has it bound; a
token it signed is taken for nobody's. -/
theorem Sound.window {rt : Runtime} {supply : ℕ → Point} {root : PathName}
    (hroot : PlainPath root) {s : Disk} (h : Sound rt.sha256 supply root (fun _ _ => True) 0 s)
    (hsupply : Set.InjOn supply (Set.Iio (s.generated + 1))) {td name : String}
    (hreg : Registered root s td name) (impl : Impl) :
    ∃ t p, impl.Passes rt supply root (.rotateService name true) s t ∧
      t.tree.get (keyPath root name) = some (.file (.key p)) ∧
      (∀ (reader : Impl) id, ¬ reader.BindsKey (bundleFile root t) id p) ∧
      ∀ (verifier : Impl) (libs : Libs) (own : SpiffeId) (now leeway : ℚ) (token : String),
        libs.py.Documented → libs.go.Documented → verifier.SignedBy libs rt.sha256 p token →
        verifier.verify libs own (bundleFile root t) now token leeway = none := by
  obtain ⟨hput, hpasses⟩ := impl.passes_key_write hroot h hreg
  set t : Disk :=
    ⟨s.tree.put (keyPath root name) (.file (.key (supply s.generated))), s.generated + 1⟩ with ht
  have hkey : t.tree.get (keyPath root name) = some (.file (.key (supply s.generated))) := by
    rw [ht, Volume.get_put hput, if_pos rfl]
  have hsame : t.tree.get (bundlePath root) = s.tree.get (bundlePath root) := by
    rw [ht, Volume.get_put hput, if_neg (keyPath_ne_bundlePath root name).symm]
  -- the bundle is the old one, so it lists old keys only
  have hold : Sound rt.sha256 supply root (fun _ i => i < s.generated) 0 t := by
    refine ⟨Nat.zero_le _, fun d hd => ?_⟩
    rw [hsame] at hd
    obtain ⟨td', ids, hdoc, hl⟩ := h.written d hd
    refine ⟨td', ids, hdoc, fun id keys hlook => ?_⟩
    obtain ⟨is, hkeys, his⟩ := hl id keys hlook
    exact ⟨is, hkeys, fun i hi => ⟨Nat.lt_succ_of_lt (his i hi).1, (his i hi).1⟩⟩
  have hnew : ∀ i < s.generated, supply i ≠ supply s.generated := by
    intro i hi he
    have hin := hsupply (Set.mem_Iio.mpr (Nat.lt_succ_of_lt hi))
      (Set.mem_Iio.mpr (Nat.lt_succ_self _)) he
    omega
  refine ⟨t, supply s.generated, hpasses, hkey, fun reader id hb => ?_,
    fun verifier libs own now leeway token hpy hgo hsigned => ?_⟩
  · obtain ⟨i, -, hi, hp⟩ := hold.index_of_bindsKey hroot hb
    exact hnew i hi hp
  · cases hv : verifier.verify libs own (bundleFile root t) now token leeway with
    | none => rfl
    | some caller =>
      obtain ⟨i, -, hi, hp⟩ := hold.index_of_verify hroot hpy hgo hsigned hv
      exact absurd hp (hnew i hi)

/-- On every root that calls can reach, every rotation of a registered service
passes through a state where the live key is unbound, and where no receiver
accepts what it signs. -/
theorem rotation_window (rt : Runtime) (supply : ℕ → Point) (root : PathName)
    (hroot : PlainPath root) (s₀ s : Disk) (hfresh : s₀.tree.get (bundlePath root) = none)
    (hrun : Run rt supply root s₀ s) (hsupply : Set.InjOn supply (Set.Iio (s.generated + 1)))
    (td name : String) (hreg : Registered root s td name) (impl : Impl) :
    ¬ impl.NoWindow rt supply root td name s ∧
      ∃ t p, impl.Passes rt supply root (.rotateService name true) s t ∧
        t.tree.get (keyPath root name) = some (.file (.key p)) ∧
        ∀ (verifier : Impl) (libs : Libs) (own : SpiffeId) (now leeway : ℚ) (token : String),
          libs.py.Documented → libs.go.Documented → verifier.SignedBy libs rt.sha256 p token →
          verifier.verify libs own (bundleFile root t) now token leeway = none := by
  have h := (Sound.fresh hfresh).run hroot (fun _ _ _ => trivial) hrun
  obtain ⟨t, p, hpasses, hkey, hunbound, hrejected⟩ := h.window hroot hsupply hreg impl
  exact ⟨fun hno => hunbound .python _ (hno t hpasses p hkey .python),
    t, p, hpasses, hkey, hrejected⟩

/-! ### One rotation -/

namespace Sample

theorem registered_registered : Registered root registered "a.b" "x" where
  domain := rfl
  name_ok := ⟨⟨"a.b", "/x"⟩, rfl⟩
  key := ⟨.key basePoint, rfl⟩

theorem registered_supply : Set.InjOn supply (Set.Iio (registered.generated + 1)) := by
  have hcount : registered.generated + 1 = 2 := rfl
  exact hcount ▸ supply_injOn

end Sample

theorem rotation_window_sample :
    ¬ Impl.python.NoWindow Sample.runtime Sample.supply Sample.root "a.b" "x" Sample.registered :=
  (rotation_window Sample.runtime Sample.supply Sample.root Sample.plain_root Sample.emptyDisk
    Sample.registered rfl Sample.run_registered Sample.registered_supply "a.b" "x"
    Sample.registered_registered .python).1

/-- Rotating `x` on a root that just registered it: the new key is in its file,
and the bundle still lists the first key alone. -/
theorem rotate_unbinds_live_key :
    Run Sample.runtime Sample.supply Sample.root Sample.emptyDisk Sample.registered ∧
      ∃ t, Impl.go.Passes Sample.runtime Sample.supply Sample.root (.rotateService "x" true)
          Sample.registered t ∧
        t.tree.get (keyPath Sample.root "x") = some (.file (.key Sample.secondPoint)) ∧
        ¬ Impl.go.BindsKey (bundleFile Sample.root t) "spiffe://a.b/x" Sample.secondPoint := by
  have hsound : Sound Sample.runtime.sha256 Sample.supply Sample.root (fun _ _ => True) 0
      Sample.registered :=
    (Sound.fresh rfl).run Sample.plain_root (fun _ _ _ => trivial)
      Sample.run_registered
  obtain ⟨hput, hpasses⟩ :=
    Impl.go.passes_key_write Sample.plain_root hsound Sample.registered_registered
  have hcount : Sample.supply Sample.registered.generated = Sample.secondPoint := by
    have hone : Sample.registered.generated = 1 := rfl
    rw [hone]
    rfl
  rw [hcount] at hpasses
  have hkey : Volume.get (Sample.registered.tree.put (keyPath Sample.root "x")
      (.file (.key Sample.secondPoint))) (keyPath Sample.root "x") =
        some (.file (.key Sample.secondPoint)) := by
    rw [Volume.get_put hput, if_pos rfl]
  refine ⟨Sample.run_registered, _, hpasses, hkey, ?_⟩
  rintro ⟨jwks, ms, hbound, hmem, hx, -⟩
  have hdoc : bundleFile Sample.root ⟨Sample.registered.tree.put (keyPath Sample.root "x")
      (.file (.key Sample.secondPoint)), Sample.registered.generated + 1⟩ =
        .doc (document (.str "a.b")
          (AList.insert "spiffe://a.b/x" [jwkAt Sample.baseDigest Sample.supply 0] ∅)) := by
    refine bundleFile_of_get Sample.plain_root ?_
    dsimp only
    rw [Volume.get_put hput, if_neg (keyPath_ne_bundlePath _ _).symm]
    rfl
  rw [hdoc, bound_document] at hbound
  obtain ⟨hlook, -⟩ := lookup_of_readBack hbound
  rw [AList.lookup_insert] at hlook
  cases hlook
  cases List.mem_singleton.mp hmem
  have hq := (isP256Jwk_jwk Sample.baseDigest Sample.basePoint).x.symm.trans hx
  have hcoord : coord Sample.basePoint.x = coord Sample.secondPoint.x := by simpa using hq
  exact absurd hcoord (by decide)

end Spiffile
