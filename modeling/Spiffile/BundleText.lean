import Spiffile.Confinement
import Spiffile.Custody
import Spiffile.JsonQuoting

/-!
# The text of a bundle

What the three implementations write at the bundle's path, character by
character, and what is read of it where the writing stops on the way. The members
stand in the order of the map, with Go in that of the names.
-/

namespace Spiffile

open FileTree JsonText

/-! ### The texts -/

/-- `encoding/json` writes a map in the order of its keys. -/
def Go.sorted (ids : Identities) : Identities where
  entries := ids.entries.mergeSort fun a b => decide (a.1 ≤ b.1)
  nodupKeys := (List.perm_nodupKeys (List.mergeSort_perm _ _)).mpr ids.nodupKeys

theorem Go.lookup_sorted (ids : Identities) (id : String) :
    (Go.sorted ids).lookup id = ids.lookup id :=
  AList.perm_lookup (List.mergeSort_perm _ _)

/-- The identities in the order they are written in. -/
def Impl.order (ids : Identities) : Impl → Identities
  | go => Go.sorted ids
  | _ => ids

def Impl.quoting : Impl → Char → List Char
  | python => Py.escape
  | typescript => Ts.escape
  | go => Go.escapeJson

/-- What is written at the bundle's path, up to the newline behind it. -/
def Impl.bundleText (fraction : ℚ → List Char) (td : String) (ids : Identities) (impl : Impl) :
    List Char :=
  render (indented impl.quoting fraction) 0 (document (.str td) (impl.order ids))

/-- What the three readers make of a text. -/
def loadsText (text : List Char) : BundleFile :=
  match parse text with
  | some d => .doc d
  | none => .notJson

theorem Impl.quotes (impl : Impl) : Quotes impl.quoting := by
  cases impl with
  | python => exact py_quotes
  | typescript => exact ts_quotes
  | go => exact go_quotes

theorem Impl.lookup_order (impl : Impl) (ids : Identities) (id : String) :
    (impl.order ids).lookup id = ids.lookup id := by
  cases impl with
  | go => exact Go.lookup_sorted ids id
  | _ => rfl

theorem whole_document {td : String} {ids : Identities}
    (h : ∀ id keys, ids.lookup id = some keys → WholeItems keys) :
    Whole (document (.str td) ids) := by
  have hids : Whole (.obj (ids.entries.map fun e => (e.1, .obj [("keys", .arr e.2)]))) := by
    refine wholeMembers_of_forall fun m hm => ?_
    obtain ⟨e, he, rfl⟩ := List.mem_map.mp hm
    exact ⟨h e.1 e.2 (AList.mem_lookup_iff.mpr he), trivial⟩
  exact ⟨trivial, trivial, hids, trivial⟩

/-- Derived keys hold strings only. -/
theorem Lists.whole {sha256 : Hash} {supply : ℕ → Point} {R : String → ℕ → Prop} {n : ℕ}
    {ids : Identities} (h : Lists sha256 supply R n ids) (id : String) (keys : List Json)
    (hl : ids.lookup id = some keys) : WholeItems keys := by
  obtain ⟨is, rfl, -⟩ := h id keys hl
  refine wholeItems_of_forall fun x hx => ?_
  obtain ⟨i, -, rfl⟩ := List.mem_map.mp hx
  exact ⟨trivial, trivial, trivial, trivial, trivial, trivial, trivial, trivial⟩

theorem loadsText_cut (impl : Impl) (fraction : ℚ → List Char) {td : String} {ids : Identities}
    (h : ∀ id keys, ids.lookup id = some keys → WholeItems keys) {p : List Char}
    (hp : p <+: impl.bundleText fraction td ids ++ ['\n']) :
    loadsText p =
      if (impl.bundleText fraction td ids).length ≤ p.length then
        .doc (document (.str td) (impl.order ids))
      else .notJson := by
  have hwhole : Whole (document (.str td) (impl.order ids)) :=
    whole_document fun id keys hl => h id keys (impl.lookup_order ids id ▸ hl)
  have hcut : parse p = if (impl.bundleText fraction td ids).length ≤ p.length then
      some (document (.str td) (impl.order ids)) else none := parse_cut (indented_lawful impl.quotes fraction) hwhole hp
  split_ifs at hcut ⊢
  · rw [loadsText, hcut]
  · rw [loadsText, hcut]

/-! ### Every bundle that is written -/

/-- The commands of a call are proper, for an owner of the keys it makes. -/
theorem Custody.issues {rt : Runtime} {supply : ℕ → Point} {root : PathName} {owner : ℕ → String}
    (hroot : PlainPath root) {impl : Impl} {call : Call} {first s u : Disk} {c : Cmd}
    (h : Custody rt.sha256 supply root owner first s) (hc : impl.Issues rt supply root call s c u) :
    Proper rt.sha256 supply root (assign owner s.generated call) c u := by
  have hcustody := h.reassign fun _ hi => assign_of_lt owner hi call
  have hown := owns_assign owner s.generated call
  cases impl with
  | python =>
    rw [Impl.Issues, Py.perform_eq] at hc
    exact (performWith_proper (Py.kit_lawful rt) hroot py_removeFiles_proper hcustody hown).good hc
  | typescript =>
    rw [Impl.Issues, Ts.perform_eq] at hc
    exact (performWith_proper (Ts.kit_lawful rt) hroot
      (fun p t => removeAll_proper p rt.lenient Ts.raised t) hcustody hown).good hc
  | go =>
    rw [Impl.Issues, Go.perform_eq] at hc
    exact (performWith_proper (Go.kit_lawful rt) hroot
      (fun p t => removeAll_proper p false _ t) hcustody hown).good hc

namespace Sample

/-- The second command of `init` writes the bundle. -/
theorem init_writes : ∃ u, Impl.typescript.Issues runtime supply root (.initRoot "a.b") emptyDisk
    (.write (bundlePath root) (.json (document (.str "a.b") ∅))) u :=
  ⟨_, Or.inr (Or.inr (Or.inl ⟨rfl, rfl⟩))⟩

end Sample

end Spiffile
