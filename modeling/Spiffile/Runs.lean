import Spiffile.Mint
import Spiffile.Outcomes

/-!
# Runs over a root

Calls of the three implementations, in any order and mixture, on one root. A
call may return, raise, or stop at any state it visits.
-/

namespace Spiffile

open FileTree

namespace Py

def perform (rt : Runtime) (root : PathName) : Call → Prog Cmd Ans Exn Unit
  | .initRoot trustDomain => initRoot rt root trustDomain
  | .addService name => discard (addService rt root name)
  | .rotateService name keepOld => discard (rotateService rt root name keepOld)
  | .removeService name => removeService rt root name

theorem perform_eq (rt : Runtime) (root : PathName) (call : Call) :
    perform rt root call = performWith (kit rt) removeFiles root call := by
  cases call <;> rfl

end Py

namespace Ts

def perform (rt : Runtime) (root : PathName) : Call → Prog Cmd Ans Exn Unit
  | .initRoot trustDomain => initRoot rt root trustDomain
  | .addService name => discard (addService rt root name)
  | .rotateService name keepOld => discard (rotateService rt root name keepOld)
  | .removeService name => removeService rt root name

theorem perform_eq (rt : Runtime) (root : PathName) (call : Call) :
    perform rt root call = performWith (kit rt) (removeFiles rt) root call := by
  cases call <;> rfl

end Ts

namespace Go

def perform (rt : Runtime) (root : PathName) : Call → Prog Cmd Ans Err Unit
  | .initRoot trustDomain => initRoot rt root trustDomain
  | .addService name => discard (addService rt root name)
  | .rotateService name keepOld => discard (rotateService rt root name keepOld)
  | .removeService name => removeService rt root name

theorem perform_eq (rt : Runtime) (root : PathName) (call : Call) :
    perform rt root call = performWith (kit rt) removeFiles root call := by
  cases call <;> rfl

end Go

section

variable (rt : Runtime) (supply : ℕ → Point) (root : PathName)

namespace Impl

/-- The call, started in `s`, passes through `t`, or stops there. -/
def Visits (call : Call) (s t : Disk) : Impl → Prop
  | python => (Py.perform rt root call).Visits (Disk.semantics supply) s t
  | typescript => (Ts.perform rt root call).Visits (Disk.semantics supply) s t
  | go => (Go.perform rt root call).Visits (Disk.semantics supply) s t

/-- The call, started in `s`, returns without an error in `t`. -/
def Returns (call : Call) (s t : Disk) : Impl → Prop
  | python => (Py.perform rt root call).Returns (Disk.semantics supply) s () t
  | typescript => (Ts.perform rt root call).Returns (Disk.semantics supply) s () t
  | go => (Go.perform rt root call).Returns (Disk.semantics supply) s () t

end Impl

/-- Calls one after the other, each of which may stop on the way. -/
def Run : Disk → Disk → Prop :=
  Relation.ReflTransGen fun s t => ∃ c : Impl × Call, c.1.Visits rt supply root c.2 s t

end

/-- What a receiver finds at the bundle's path. -/
def bundleFile (root : PathName) (s : Disk) : BundleFile :=
  bundleFileWith .notJson (s.tree.read (bundlePath root))

/-- The trust domain of the bundle on the disk. -/
def trustDomainAt (root : PathName) (s : Disk) : Option String :=
  (Ts.sourceGet (bundleFile root s)).toOption.map Bundle.trustDomain

/-- The reader's bundle lists the public key under the ID. -/
def Impl.BindsKey (file : BundleFile) (id : String) (p : Point) (reader : Impl) : Prop :=
  ∃ jwks ms, reader.bound file id = some jwks ∧ Json.obj ms ∈ jwks ∧
    Members.get? ms "x" = some (.str (coord p.x)) ∧ Members.get? ms "y" = some (.str (coord p.y))

/-! ### Sound states -/

theorem bound_document (td : String) (ids : Identities) (id : String) (reader : Impl) :
    reader.bound (.doc (document (.str td) ids)) id = readBack td ids id := by
  cases reader with
  | python =>
    obtain ⟨b, hb, -, hl⟩ := py_fromDict_document td ids
    simp only [Impl.bound, Py.readBundle, hb]
    exact hl id
  | typescript =>
    obtain ⟨b, hb, -, hl⟩ := ts_fromDocument_document td ids
    simp only [Impl.bound, Ts.sourceGet, hb]
    exact hl id
  | go =>
    obtain ⟨b, ws, hb, -, hl⟩ := go_parseBundle_document td ids
    simp only [Impl.bound, Go.readBundle, hb]
    exact hl id

/-- Only a document binds. -/
theorem doc_of_bound {file : BundleFile} {id : String} {jwks : List Json} {reader : Impl}
    (h : reader.bound file id = some jwks) : ∃ d, file = .doc d := by
  cases file with
  | doc d => exact ⟨d, rfl⟩
  | missing => cases reader <;> cases h
  | notJson => cases reader <;> cases h

section

variable {sha256 : Hash} {supply : ℕ → Point} {root : PathName} {R : String → ℕ → Prop} {c₀ : ℕ}
  (hroot : PlainPath root)

include hroot

theorem get_of_bundleFile {s : Disk} {d : Json} (h : bundleFile root s = .doc d) :
    s.tree.get (bundlePath root) = some (.file (.json d)) := by
  unfold bundleFile bundleFileWith at h
  split at h
  · next d' hd =>
    cases h
    exact (Volume.read_plain_eq_ok (plainPath_bundlePath hroot) _ _).mp hd
  · cases h
  · cases h
  · cases h

theorem bundleFile_of_get {s : Disk} {d : Json}
    (h : s.tree.get (bundlePath root) = some (.file (.json d))) : bundleFile root s = .doc d := by
  rw [bundleFile, (Volume.read_plain_eq_ok (plainPath_bundlePath hroot) _ _).mpr h]
  rfl

theorem trustDomainAt_document {s : Disk} {td : String} {ids : Identities}
    (h : s.tree.get (bundlePath root) = some (.file (.json (document (.str td) ids)))) :
    trustDomainAt root s = some td := by
  obtain ⟨b, hb, htd, -⟩ := ts_fromDocument_document td ids
  rw [trustDomainAt, bundleFile_of_get hroot h]
  simp only [Ts.sourceGet, hb]
  exact congrArg some htd

/-- In a sound state a document at the bundle's path is a written one. -/
theorem Sound.document {s : Disk} (h : Sound sha256 supply root R c₀ s) {d : Json}
    (hd : bundleFile root s = .doc d) :
    ∃ td ids, d = document (.str td) ids ∧ Lists sha256 supply R s.generated ids :=
  h.written d (get_of_bundleFile hroot hd)

theorem doc_of_trustDomainAt {s : Disk} {td : String}
    (h : Sound sha256 supply root R c₀ s) (htd : trustDomainAt root s = some td) :
    ∃ ids, s.tree.get (bundlePath root) = some (.file (.json (document (.str td) ids))) ∧
      Lists sha256 supply R s.generated ids := by
  unfold trustDomainAt at htd
  obtain ⟨b, hb, -⟩ := Option.map_eq_some_iff.mp htd
  have hdoc : ∃ d, bundleFile root s = .doc d := by
    cases hf : bundleFile root s with
    | doc d => exact ⟨d, rfl⟩
    | missing =>
      rw [hf] at hb
      cases hb
    | notJson =>
      rw [hf] at hb
      cases hb
  obtain ⟨d, hd⟩ := hdoc
  obtain ⟨td', ids, rfl, hl⟩ := h.document hroot hd
  have hget := get_of_bundleFile hroot hd
  have he : td' = td := Option.some_inj.mp ((trustDomainAt_document hroot hget).symm.trans htd)
  exact ⟨ids, he ▸ hget, hl⟩

/-- A bound key is one of the supply that the rule allows there. -/
theorem Sound.index_of_bindsKey {s : Disk} (h : Sound sha256 supply root R c₀ s) {id : String}
    {p : Point} {reader : Impl} (hb : reader.BindsKey (bundleFile root s) id p) :
    ∃ i < s.generated, R id i ∧ supply i = p := by
  obtain ⟨jwks, ms, hbound, hmem, hx, hy⟩ := hb
  obtain ⟨d, hd⟩ := doc_of_bound hbound
  obtain ⟨td, ids, rfl, hl⟩ := h.document hroot hd
  rw [hd, bound_document] at hbound
  obtain ⟨is, rfl, his⟩ := hl id jwks (lookup_of_readBack hbound).1
  obtain ⟨i, hi, hjwk⟩ := List.mem_map.mp hmem
  obtain ⟨hlt, hR⟩ := his i hi
  cases hjwk
  have hq := isP256Jwk_jwk sha256 (supply i)
  have hxi : coord (supply i).x = coord p.x := by simpa using hq.x.symm.trans hx
  have hyi : coord (supply i).y = coord p.y := by simpa using hq.y.symm.trans hy
  exact ⟨i, hlt, hR, Point.ext_xy (coord_injective (supply i).x_lt p.x_lt hxi)
    (coord_injective (supply i).y_lt p.y_lt hyi)⟩

theorem bindsKey_of_get {s : Disk} {td id : String} {ids : Identities} {keys : List Json} {i : ℕ}
    (h : s.tree.get (bundlePath root) = some (.file (.json (document (.str td) ids))))
    (hin : inTrustDomain td id = true) (hl : ids.lookup id = some keys)
    (hi : jwkAt sha256 supply i ∈ keys) (reader : Impl) :
    reader.BindsKey (bundleFile root s) id (supply i) := by
  have hkept : (!keys.isEmpty) = true := by simpa using List.ne_nil_of_mem hi
  have hq := isP256Jwk_jwk sha256 (supply i)
  refine ⟨keys, _, ?_, hi, hq.x, hq.y⟩
  rw [bundleFile_of_get hroot h, bound_document, readBack, if_pos hin, hl, Option.filter_some,
    if_pos hkept]

end

/-! ### Every call keeps soundness -/

section

variable {rt : Runtime} {supply : ℕ → Point} {root : PathName} {R : String → ℕ → Prop} {c₀ : ℕ}
  (hroot : PlainPath root)

include hroot

theorem Sound.performWith_sat {ε τ κ : Type} {kit : Kit ε τ κ} {sha256 : Hash}
    (lawful : kit.Lawful sha256) {removeFiles : PathName → Prog Cmd Ans ε Unit}
    (hfiles : ∀ p t, Sound sha256 supply root R c₀ t →
      (removeFiles p).Sat (Disk.semantics supply) t (Sound sha256 supply root R c₀)
        fun _ _ => True) (hR : Admits R c₀) (call : Call) {s : Disk}
    (h : Sound sha256 supply root R c₀ s) :
    (performWith kit removeFiles root call).Sat (Disk.semantics supply) s
      (Sound sha256 supply root R c₀) fun _ _ => True := by
  have hdiscard : ∀ (p : Prog Cmd Ans ε SpiffeId),
      p.Sat (Disk.semantics supply) s (Sound sha256 supply root R c₀) (fun _ _ => True) →
      (discard p).Sat (Disk.semantics supply) s (Sound sha256 supply root R c₀)
        fun _ _ => True := by
    intro p hp
    rw [discard, Prog.sat_bind]
    refine hp.mono (fun _ hm => hm) fun r t ht _ => ?_
    cases r with
    | ok _ => exact ⟨ht, trivial⟩
    | error _ => trivial
  cases call with
  | initRoot td => exact h.initRoot_sat hroot lawful td
  | addService name => exact hdiscard _ (h.addService_sat hroot lawful hR name)
  | rotateService name keepOld => exact hdiscard _ (h.rotateService_sat hroot lawful hR name keepOld)
  | removeService name => exact h.removeService_sat hroot lawful hfiles name

/-- Whatever state a call visits. -/
theorem Sound.visits (hR : Admits R c₀) {impl : Impl} {call : Call} {s t : Disk}
    (h : Sound rt.sha256 supply root R c₀ s) (hv : impl.Visits rt supply root call s t) :
    Sound rt.sha256 supply root R c₀ t := by
  cases impl with
  | python =>
    rw [Impl.Visits, Py.perform_eq] at hv
    exact ((Prog.sat_iff _ _ _ _).mp (h.performWith_sat hroot (Py.kit_lawful rt)
      py_removeFiles_sat hR call)).1 t hv
  | typescript =>
    rw [Impl.Visits, Ts.perform_eq] at hv
    exact ((Prog.sat_iff _ _ _ _).mp (h.performWith_sat hroot (Ts.kit_lawful rt)
      (fun p t ht => removeAll_sat p rt.lenient Ts.raised t ht) hR call)).1 t hv
  | go =>
    rw [Impl.Visits, Go.perform_eq] at hv
    exact ((Prog.sat_iff _ _ _ _).mp (h.performWith_sat hroot (Go.kit_lawful rt)
      (fun p t ht => removeAll_sat p false _ t ht) hR call)).1 t hv

/-- Whatever state a run passes through. -/
theorem Sound.run (hR : Admits R c₀) {s t : Disk} (h : Sound rt.sha256 supply root R c₀ s)
    (hrun : Run rt supply root s t) : Sound rt.sha256 supply root R c₀ t :=
  Prog.invariant_of_calls (R := fun (c : Impl × Call) s t => c.1.Visits rt supply root c.2 s t)
    (fun _ _ _ hs hv => hs.visits hroot hR hv) h hrun

end

/-- Without a bundle nothing is bound. -/
theorem Sound.fresh {sha256 : Hash} {supply : ℕ → Point} {root : PathName} {s : Disk}
    (h : s.tree.get (bundlePath root) = none) :
    Sound sha256 supply root (fun _ _ => True) 0 s := by
  refine ⟨Nat.zero_le _, fun d hd => ?_⟩
  rw [h] at hd
  cases hd

/-! ### A root to start from -/

namespace Sample

/-- Twice the base point of P-256. -/
def secondPoint : Point where
  x := 0x7cf27b188d034f7e8a52380304b51ac3c08969e277f21b35a60b48fc47669978
  y := 0x07775510db8ed040293d9ac69f7430dbba7dade63ce982299e04b79d227873d1
  x_lt := by decide +kernel
  y_lt := by decide +kernel

def runtime : Runtime where
  sha256 := baseDigest
  table _ := false
  format _ := ""
  lenient := false

def supply (i : ℕ) : Point := if i = 0 then basePoint else secondPoint

theorem supply_injOn : Set.InjOn supply (Set.Iio 2) := by
  have hne : basePoint ≠ secondPoint := fun he => absurd (congrArg Point.x he) (by decide +kernel)
  intro i hi j hj hij
  rw [Set.mem_Iio] at hi hj
  by_cases h0 : i = 0 <;> by_cases h1 : j = 0
  · rw [h0, h1]
  · rw [supply, if_pos h0, supply, if_neg h1] at hij
    exact absurd hij hne
  · rw [supply, if_neg h0, supply, if_pos h1] at hij
    exact absurd hij.symm hne
  · omega

def root : PathName := ["srv"]

theorem plain_root : PlainPath root :=
  plainPath_singleton ⟨by decide, by decide, by decide, by decide⟩

def emptyVolume : Volume Content where
  nodes := AList.singleton [] .dir
  root_dir := by simp [AList.lookup]
  closed := by
    intro p name n h
    have h' := AList.mem_lookup_iff.mp h
    simp at h'

def emptyDisk : Disk := ⟨emptyVolume, 0⟩

/-- The disk after a call of the TypeScript implementation. -/
def after (call : Call) (s : Disk) : Disk :=
  ((Ts.perform runtime root call).run (Disk.semantics supply) s).2

theorem run_after (call : Call) (s : Disk) : Run runtime supply root s (after call s) :=
  .single ⟨(.typescript, call), Prog.visits_end _ s⟩

theorem returns_after {call : Call} {s : Disk}
    (h : ((Ts.perform runtime root call).run (Disk.semantics supply) s).1.isOk = true) :
    Impl.typescript.Returns runtime supply root call s (after call s) := by
  obtain ⟨u, hu⟩ := exists_of_isOk h
  exact Prod.ext hu rfl

def registered : Disk := after (.addService "x") (after (.initRoot "a.b") emptyDisk)

theorem run_registered : Run runtime supply root emptyDisk registered :=
  (run_after _ _).trans (run_after _ _)

end Sample

end Spiffile
