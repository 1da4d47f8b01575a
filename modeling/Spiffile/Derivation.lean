import Mathlib.Data.List.Sort
import Spiffile.Mint

/-!
# The derivation of a public JWK

`jwk_thumbprint` sorts a dict, `thumbprint` sorts the keys of a map and prints
them with `%q`, `jwkThumbprint` writes a literal in the right order. On the
coordinates of a key all three hash the canonical form of RFC 7638, which
determines the key.
-/

namespace Spiffile

open Base64Url

/-! ### The three canonicalisations -/

/-- The required members of an EC key by name. -/
def requiredMembers (crv kty x y : String) : List (String × String) :=
  [("crv", crv), ("kty", kty), ("x", x), ("y", y)]

def requiredNames : List String := ["crv", "kty", "x", "y"]

/-- An object of strings without white space, its members as they come. -/
def compactWith (escape : Char → List Char) (ms : List (String × String)) : String :=
  "\x7b" ++ ",".intercalate (ms.map fun m => quoteWith escape m.1 ++ ":" ++ quoteWith escape m.2) ++
    "\x7d"

/-- The canonical form: the required members in the order of their names, no
white space, and no character that must be escaped. -/
def rfc7638 (crv kty x y : String) : String :=
  compactWith (fun c => [c]) (requiredMembers crv kty x y)

/-- `json.dumps(required, separators=(",", ":"), sort_keys=True)`. -/
def Py.canonical (crv kty x y : String) : String :=
  compactWith escape
    ((requiredMembers crv kty x y).insertionSort fun a b => a.1 ≤ b.1)

/-- `JSON.stringify` of the literal. -/
def Ts.canonical (crv kty x y : String) : String :=
  compactWith escape (requiredMembers crv kty x y)

namespace Go

/-- `required[k]`. -/
def requiredValue (j : JWK) (k : String) : String :=
  ((requiredMembers j.crv j.kty j.x j.y).lookup k).getD ""

/-- The loop over the sorted keys; `canonical` is what was written so far. -/
def writeMembers (table : Char → Bool) (j : JWK) (canonical : String) : ℕ → List String → String
  | _, [] => canonical
  | i, k :: keys =>
    let canonical := if i > 0 then canonical ++ "," else canonical
    writeMembers table j
      (canonical ++ (quoteWith (escape table) k ++ ":" ++ quoteWith (escape table) (requiredValue j k)))
      (i + 1) keys

/-- The canonical text, where the map is ranged over in the order `keys`. -/
def canonical (table : Char → Bool) (keys : List String) (j : JWK) : String :=
  writeMembers table j "\x7b" 0 (keys.insertionSort (· ≤ ·)) ++ "\x7d"

end Go

/-! ### One text -/

theorem compactWith_required (escape : Char → List Char) (crv kty x y : String) :
    compactWith escape (requiredMembers crv kty x y) = canonicalWith escape crv kty x y := by
  simp only [compactWith, requiredMembers, canonicalWith, List.map_cons, List.map_nil,
    String.intercalate_cons_cons, String.intercalate_singleton, String.append_assoc]

theorem ts_canonical (crv kty x y : String) :
    Ts.canonical crv kty x y = canonicalWith Ts.escape crv kty x y :=
  compactWith_required Ts.escape crv kty x y

theorem py_canonical (crv kty x y : String) :
    Py.canonical crv kty x y = canonicalWith Py.escape crv kty x y := by
  have hsorted : (requiredMembers crv kty x y).insertionSort (fun a b => a.1 ≤ b.1) =
      requiredMembers crv kty x y := by
    apply List.Pairwise.insertionSort_eq
    simp [requiredMembers]
  rw [Py.canonical, hsorted, compactWith_required]

/-- Whatever order the map is ranged over in. -/
theorem go_canonical (table : Char → Bool) {keys : List String} (hkeys : keys.Perm requiredNames)
    (j : Go.JWK) :
    Go.canonical table keys j = canonicalWith (Go.escape table) j.crv j.kty j.x j.y := by
  have hsorted : keys.insertionSort (· ≤ ·) = requiredNames := by
    have horder : requiredNames.Pairwise (· ≤ ·) := by simp [requiredNames]
    have hperm := (List.perm_insertionSort (· ≤ ·) keys).trans hkeys
    refine hperm.eq_of_pairwise ?_ (List.pairwise_insertionSort _ keys) horder
    intro a b _ _ hab hba
    exact String.le_antisymm hab hba
  rw [Go.canonical, hsorted]
  simp [Go.writeMembers, requiredNames, Go.requiredValue, requiredMembers, canonicalWith,
    List.lookup_cons, String.append_assoc]

/-- On the coordinates of a key nothing is escaped. -/
theorem canonical_rfc7638 {escape : Char → List Char}
    (hescape : ∀ c, isPlain c = true → escape c = [c]) (p : Point) :
    canonicalWith escape "P-256" "EC" (coord p.x) (coord p.y) =
      rfc7638 "P-256" "EC" (coord p.x) (coord p.y) := by
  rw [rfc7638, compactWith_required]
  exact canonical_congr escape _ hescape (fun _ _ => rfl) p

theorem length_coord (n : ℕ) : (coord n).toList.length = 43 := by
  rw [coord, b64url, String.toList_ofList, length_encode, length_beBytes]
  rfl

/-- The text hashed for the `kid` of a key. -/
def Point.canonical (p : Point) : String := rfc7638 "P-256" "EC" (coord p.x) (coord p.y)

/-- The canonical form of a key determines it: the coordinates have one width. -/
theorem Point.canonical_injective {p q : Point} (h : p.canonical = q.canonical) : p = q := by
  have hlist := congrArg String.toList h
  simp only [canonical, rfc7638, compactWith_required, canonicalWith, quoteWith,
    String.toList_append, String.toList_ofList, List.append_assoc, List.cons_append,
    List.flatMap_singleton', List.append_cancel_left_eq, List.cons.injEq, true_and] at hlist
  obtain ⟨hx, hrest⟩ := List.append_inj hlist (by rw [length_coord, length_coord])
  simp only [List.nil_append, List.cons.injEq, true_and, List.append_cancel_left_eq] at hrest
  obtain ⟨hy, -⟩ := List.append_inj hrest (by rw [length_coord, length_coord])
  exact Point.ext_xy (coord_injective p.x_lt q.x_lt (String.toList_inj.mp hx))
    (coord_injective p.y_lt q.y_lt (String.toList_inj.mp hy))

theorem Point.kid_eq (sha256 : Hash) (p : Point) : p.kid sha256 = b64url (sha256 p.canonical) := by
  rw [kid, thumbprintWith, canonical_rfc7638 py_escape_plain]
  rfl

/-- `public_jwk` of Python and `parsePrivateKeyPEM` of Go give the coordinates
the same text, which decodes to them, and the three `kid`s are hashes of one
text, from which the key can be told. -/
theorem jwk_derivation_lossless (sha256 : Hash) (table : Char → Bool) (p : Point) :
    (∃ ms, Py.publicJwk sha256 p.x p.y = some ms ∧
      Members.get? ms "x" = some (.str (Go.publicJwk table sha256 p).x) ∧
      Members.get? ms "y" = some (.str (Go.publicJwk table sha256 p).y) ∧
      Go.loadKey (.obj ms) = some (b64url (sha256 p.canonical), ⟨p.x, p.y⟩)) ∧
    Go.jwkToPublicKey (Go.publicJwk table sha256 p) = some ⟨p.x, p.y⟩ ∧
    Py.canonical "P-256" "EC" (coord p.x) (coord p.y) = p.canonical ∧
    (∀ keys : List String, keys.Perm requiredNames →
      Go.canonical table keys (Go.publicJwk table sha256 p) = p.canonical) ∧
    Ts.canonical (Ts.exportJwk p).crv (Ts.exportJwk p).kty (Ts.exportJwk p).x (Ts.exportJwk p).y =
      p.canonical ∧
    (Go.publicJwk table sha256 p).kid = b64url (sha256 p.canonical) ∧
    Members.get? (Ts.publicJwk sha256 (Ts.exportJwk p)) "kid" =
      some (.str (b64url (sha256 p.canonical))) ∧
    ∀ q : Point, q.canonical = p.canonical → q = p := by
  have hkid := Point.kid_eq sha256 p
  refine ⟨⟨p.jwk sha256, py_publicJwk sha256 p, ?_, ?_, ?_⟩, ?_, ?_, fun keys hkeys => ?_, ?_, ?_,
    ?_, fun q hq => Point.canonical_injective hq⟩
  · simp [Point.jwk, jwkMembers, Members.get?, Go.publicJwk]
  · simp [Point.jwk, jwkMembers, Members.get?, Go.publicJwk]
  · rw [Go.loadKey_jwk, hkid]
  · simp [Go.jwkToPublicKey, Go.publicJwk, decode_coord, beValue_beBytes _ _ p.x_lt,
      beValue_beBytes _ _ p.y_lt]
  · rw [py_canonical, canonical_rfc7638 py_escape_plain]
    rfl
  · rw [go_canonical table hkeys]
    exact canonical_rfc7638 (go_escape_plain table) p
  · rw [ts_canonical]
    exact canonical_rfc7638 ts_escape_plain p
  · rw [go_publicJwk_kid, hkid]
  · rw [ts_publicJwk, ← hkid]
    simp [Point.jwk, jwkMembers, Members.get?]

end Spiffile
