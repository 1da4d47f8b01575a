import Spiffile.Rotation
import Spiffile.Consistency

/-!
# Adding a service again

An `add_service` that was cut short, or a `remove_service`, leaves some of the
three artefacts of a service: its key file, its `id` file and its binding. The
early return of `add_service` looks at the first one alone.
-/

namespace Spiffile

open FileTree

/-- The service has its two files, and the bundle binds its ID to the public
key of the key file. -/
def FullyProvisioned (root : PathName) (name : String) (s : Disk) : Prop :=
  ∃ td p, trustDomainAt root s = some td ∧
    s.tree.get (keyPath root name) = some (.file (.key p)) ∧
    (∃ c, s.tree.get (idPath root name) = some (.file c)) ∧
    ∀ reader : Impl, reader.BindsKey (bundleFile root s) (serviceId td name) p

/-- Nothing stands in the place of the key file, and the service's ID is one of
the bundle's trust domain. -/
def Unkeyed (root : PathName) (name : String) (s : Disk) : Prop :=
  s.tree.get (keyPath root name) = none ∧
    ∃ td, trustDomainAt root s = some td ∧ inTrustDomain td (serviceId td name) = true

section

variable {sha256 : Hash} {supply : ℕ → Point} {root : PathName} (hroot : PlainPath root) {s t : Disk}
  {ε τ κ : Type} {kit : Kit ε τ κ} (lawful : kit.Lawful sha256)

/-- The three artefacts after an `add_service` that made a key. -/
theorem Added.artefacts {b : Bundle τ} {td name : String} {ids : Identities}
    (hb : ReadFrom kit td ids b) (h : Added kit sha256 supply root b name s t) :
    t.tree.get (keyPath root name) = some (.file (.key (supply s.generated))) ∧
      t.tree.get (idPath root name) = some (.file (.text (serviceId td name ++ "\n"))) ∧
      t.tree.get (bundlePath root) = some (.file (.json (document (.str td)
        (b.identities.insert (serviceId td name) [jwkAt sha256 supply s.generated])))) := by
  obtain ⟨u, -, hnodes⟩ := h.nodes
  refine ⟨?_, ?_, ?_⟩
  · rw [hnodes, if_neg (keyPath_ne_bundlePath root name),
      if_neg (idPath_ne_keyPath root name name).symm, if_pos rfl]
  · rw [hnodes, if_neg (idPath_ne_bundlePath root name), if_pos rfl, hb.text]
  · rw [hnodes, if_pos rfl, hb.text, updated, hb.serialise]

include hroot

theorem Added.fullyProvisioned_iff {b : Bundle τ} {td name : String} {ids : Identities}
    (hb : ReadFrom kit td ids b) (h : Added kit sha256 supply root b name s t) :
    FullyProvisioned root name t ↔ inTrustDomain td (serviceId td name) = true := by
  obtain ⟨hkey, hid, hbundle⟩ := h.artefacts hb
  have htd : trustDomainAt root t = some td := trustDomainAt_document hroot hbundle
  constructor
  · intro hfull
    obtain ⟨td', p, htd', -, -, hbinds⟩ := hfull
    rw [htd] at htd'
    cases htd'
    obtain ⟨jwks, ms, hbound, -⟩ := hbinds .python
    rw [bundleFile_of_get hroot hbundle, bound_document] at hbound
    exact (lookup_of_readBack hbound).2.2
  · intro hin
    refine ⟨td, supply s.generated, htd, hkey, ⟨_, hid⟩, fun reader => ?_⟩
    exact bindsKey_of_get hroot hbundle hin (AList.lookup_insert _) (List.mem_singleton_self _) reader

include lawful

/-- One implementation's `add_service`, from any sound state. -/
theorem Sound.add_fullyProvisioned_iff {R : String → ℕ → Prop} {c₀ : ℕ}
    (h : Sound sha256 supply root R c₀ s) {name : String} {r : SpiffeId}
    (hadd : (addServiceWith kit root name).Returns (Disk.semantics supply) s r t) :
    FullyProvisioned root name t ↔ Unkeyed root name s ∨ FullyProvisioned root name s := by
  obtain ⟨b, hreads, -, ⟨⟨n, hn⟩, rfl⟩ | hadded⟩ := addService_returns hroot lawful hadd
  · constructor
    · exact Or.inr
    · intro hcase
      rcases hcase with hfree | hfull
      · rw [hfree.1] at hn
        cases hn
      · exact hfull
  · obtain ⟨td, ids, hget, hb, -⟩ := hreads.readFrom lawful h
    have htd : trustDomainAt root s = some td := trustDomainAt_document hroot hget
    rw [hadded.fullyProvisioned_iff hroot hb]
    constructor
    · intro hin
      exact Or.inl ⟨hadded.fresh, td, htd, hin⟩
    · intro hcase
      rcases hcase with hfree | hfull
      · obtain ⟨-, td', htd', hin⟩ := hfree
        rw [htd] at htd'
        cases htd'
        exact hin
      · obtain ⟨td', p, -, hkey, -⟩ := hfull
        rw [hadded.fresh] at hkey
        cases hkey

end

/-- On every root that calls can reach, also calls that stop anywhere, an
`add_service` that returns has provisioned the service exactly when it found no
key file, or found nothing to do. -/
theorem add_service_retry_iff (rt : Runtime) (supply : ℕ → Point) (root : PathName)
    (hroot : PlainPath root) (s₀ s t : Disk) (hfresh : s₀.tree.get (bundlePath root) = none)
    (hrun : Run rt supply root s₀ s) (name : String) (impl : Impl)
    (hadd : impl.Returns rt supply root (.addService name) s t) :
    FullyProvisioned root name t ↔ Unkeyed root name s ∨ FullyProvisioned root name s := by
  have h := (Sound.fresh hfresh).run hroot (fun _ _ _ => trivial) hrun
  cases impl with
  | python =>
    obtain ⟨r, u, hadd', hpure⟩ := Prog.returns_bind.mp hadd
    obtain ⟨-, rfl⟩ := Prog.returns_pure.mp hpure
    exact h.add_fullyProvisioned_iff hroot (Py.kit_lawful rt) hadd'
  | typescript =>
    obtain ⟨r, u, hadd', hpure⟩ := Prog.returns_bind.mp hadd
    obtain ⟨-, rfl⟩ := Prog.returns_pure.mp hpure
    exact h.add_fullyProvisioned_iff hroot (Ts.kit_lawful rt) hadd'
  | go =>
    obtain ⟨r, u, hadd', hpure⟩ := Prog.returns_bind.mp hadd
    obtain ⟨-, rfl⟩ := Prog.returns_pure.mp hpure
    exact h.add_fullyProvisioned_iff hroot (Go.kit_lawful rt) hadd'

/-! ### Two interrupted calls -/

namespace Sample

/-- The disk when a call of the TypeScript implementation stops after so many
commands. -/
def stopped (n : ℕ) (call : Call) (s : Disk) : Disk :=
  (Ts.perform runtime root call).cut (Disk.semantics supply) n s

theorem run_stopped (n : ℕ) (call : Call) (s : Disk) : Run runtime supply root s (stopped n call s) :=
  .single ⟨(.typescript, call), Prog.visits_cut n _ s⟩

/-- The key file is written, the `id` file and the bundle are not. -/
def halfAdded : Disk := stopped 5 (.addService "x") initialised

/-- The bundle is written, the files are still there. -/
def halfRemoved : Disk := stopped 2 (.removeService "x") registered

theorem run_initialised : Run runtime supply root emptyDisk initialised := run_after _ _

theorem run_halfAdded : Run runtime supply root emptyDisk halfAdded :=
  run_initialised.trans (run_stopped _ _ _)

theorem run_halfRemoved : Run runtime supply root emptyDisk halfRemoved :=
  run_registered.trans (run_stopped _ _ _)

/-- Without a binding the service is not provisioned. -/
theorem not_fullyProvisioned {s : Disk}
    (h : s.tree.get (bundlePath root) = some (.file (.json (document (.str "a.b") ∅)))) :
    ¬ FullyProvisioned root "x" s := by
  intro hfull
  obtain ⟨td, p, -, -, -, hbinds⟩ := hfull
  obtain ⟨jwks, ms, hbound, -⟩ := hbinds .python
  rw [bundleFile_of_get plain_root h, bound_document] at hbound
  have hlook := (lookup_of_readBack hbound).1
  cases hlook

end Sample

theorem add_service_retry_iff_sample :
    FullyProvisioned Sample.root "x" (Sample.after (.addService "x") Sample.halfAdded) ↔
      Unkeyed Sample.root "x" Sample.halfAdded ∨ FullyProvisioned Sample.root "x" Sample.halfAdded :=
  add_service_retry_iff Sample.runtime Sample.supply Sample.root Sample.plain_root Sample.emptyDisk
    Sample.halfAdded (Sample.after (.addService "x") Sample.halfAdded) rfl
    Sample.run_halfAdded "x" .typescript (Sample.returns_after rfl)

/-- After an `add_service` that stopped behind the key file, and after a
`remove_service` that stopped behind the bundle, `add_service` returns and the
service has no binding. -/
theorem add_service_blocked :
    (Run Sample.runtime Sample.supply Sample.root Sample.emptyDisk Sample.halfAdded ∧
      ∃ t, Impl.typescript.Returns Sample.runtime Sample.supply Sample.root (.addService "x")
          Sample.halfAdded t ∧ ¬ FullyProvisioned Sample.root "x" t) ∧
      Run Sample.runtime Sample.supply Sample.root Sample.emptyDisk Sample.halfRemoved ∧
      ∃ t, Impl.typescript.Returns Sample.runtime Sample.supply Sample.root (.addService "x")
          Sample.halfRemoved t ∧ ¬ FullyProvisioned Sample.root "x" t := by
  refine ⟨⟨Sample.run_halfAdded, Sample.after (.addService "x") Sample.halfAdded,
    Sample.returns_after rfl, Sample.not_fullyProvisioned rfl⟩,
    Sample.run_halfRemoved, Sample.after (.addService "x") Sample.halfRemoved,
    Sample.returns_after rfl, Sample.not_fullyProvisioned rfl⟩

end Spiffile
