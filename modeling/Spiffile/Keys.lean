import Spiffile.Json
import Spiffile.Lib.Base64Url

/-!
# Public JWKs and their thumbprints

`public_jwk` and `jwk_thumbprint` of `keys.py`, `publicJwk` and `jwkThumbprint`
of `keys.ts`, `parsePrivateKeyPEM` and `thumbprint` of `spiffile.go`. SHA-256
is a parameter: a function from the hashed text to bytes.
-/

namespace Spiffile
open Base64Url

def jwtSvidUse : String := "jwt-svid"
def algorithm : String := "ES256"
/-- P-256 coordinate length in bytes. -/
def coordLength : ℕ := 32

/-- The public numbers of a P-256 key. -/
structure Point where
  x : ℕ
  y : ℕ
  x_lt : x < 256 ^ coordLength
  y_lt : y < 256 ^ coordLength

theorem Point.ext_xy {p q : Point} (hx : p.x = q.x) (hy : p.y = q.y) : p = q := by
  cases p
  cases q
  simp_all

def b64url (bs : List Byte) : String := String.ofList (encode bs)

/-- A coordinate as fixed-width big-endian base64url. -/
def coord (n : ℕ) : String := b64url (beBytes coordLength n)

theorem decode_coord (n : ℕ) : decode (coord n).toList = some (beBytes coordLength n) := by
  simp [coord, b64url, decode_encode]

theorem coord_injective {m n : ℕ} (hm : m < 256 ^ coordLength) (hn : n < 256 ^ coordLength)
    (h : coord m = coord n) : m = n := by
  have hd := congrArg (fun s => (decode s.toList).map beValue) h
  simpa [decode_coord, beValue_beBytes _ _ hm, beValue_beBytes _ _ hn] using hd

/-! ### Quoting -/

def quoteMark : Char := Char.ofNat 34
def backslash : Char := Char.ofNat 92

def hexDigit (n : ℕ) : Char := "0123456789abcdef".toList.getD (n % 16) '0'

/-- The low hexadecimal digits of a code unit, most significant first. -/
def hex : ℕ → ℕ → List Char
  | 0, _ => []
  | k + 1, n => hex k (n / 16) ++ [hexDigit n]

def quoteWith (escape : Char → List Char) (s : String) : String :=
  String.ofList (quoteMark :: s.toList.flatMap escape ++ [quoteMark])

/-- A printable ASCII character that no quoting rule escapes. -/
def isPlain (c : Char) : Bool :=
  decide (32 ≤ c.toNat) && decide (c.toNat < 127) && c != quoteMark && c != backslash

namespace Py

/-- `json.dumps` with `ensure_ascii`. -/
def escape (c : Char) : List Char :=
  if c = quoteMark ∨ c = backslash then [backslash, c]
  else if c.toNat = 8 then [backslash, 'b']
  else if c.toNat = 9 then [backslash, 't']
  else if c.toNat = 10 then [backslash, 'n']
  else if c.toNat = 12 then [backslash, 'f']
  else if c.toNat = 13 then [backslash, 'r']
  else if 32 ≤ c.toNat ∧ c.toNat < 127 then [c]
  else if c.toNat < 65536 then backslash :: 'u' :: hex 4 c.toNat
  else
    let v := c.toNat - 65536
    backslash :: 'u' :: hex 4 (55296 + v / 1024) ++ backslash :: 'u' :: hex 4 (56320 + v % 1024)

end Py

namespace Ts

/-- `JSON.stringify` on a string. -/
def escape (c : Char) : List Char :=
  if c = quoteMark ∨ c = backslash then [backslash, c]
  else if c.toNat = 8 then [backslash, 'b']
  else if c.toNat = 9 then [backslash, 't']
  else if c.toNat = 10 then [backslash, 'n']
  else if c.toNat = 12 then [backslash, 'f']
  else if c.toNat = 13 then [backslash, 'r']
  else if c.toNat < 32 then backslash :: 'u' :: hex 4 c.toNat
  else [c]

end Ts

namespace Go

/-- `strconv.IsPrint`; beyond Latin-1 it is a Unicode table. -/
def isPrint (table : Char → Bool) (c : Char) : Bool :=
  if c.toNat ≤ 255 then
    (decide (32 ≤ c.toNat) && decide (c.toNat < 127)) ||
      (decide (161 ≤ c.toNat) && c.toNat != 173)
  else table c

/-- The `%q` verb on a string. -/
def escape (table : Char → Bool) (c : Char) : List Char :=
  if c = quoteMark ∨ c = backslash then [backslash, c]
  else if isPrint table c then [c]
  else if c.toNat = 7 then [backslash, 'a']
  else if c.toNat = 8 then [backslash, 'b']
  else if c.toNat = 9 then [backslash, 't']
  else if c.toNat = 10 then [backslash, 'n']
  else if c.toNat = 11 then [backslash, 'v']
  else if c.toNat = 12 then [backslash, 'f']
  else if c.toNat = 13 then [backslash, 'r']
  else if c.toNat < 32 ∨ c.toNat = 127 then backslash :: 'x' :: hex 2 c.toNat
  else if c.toNat < 65536 then backslash :: 'u' :: hex 4 c.toNat
  else backslash :: 'U' :: hex 8 c.toNat

end Go

theorem isPlain_spec (c : Char) (h : isPlain c = true) :
    32 ≤ c.toNat ∧ c.toNat < 127 ∧ ¬ (c = quoteMark ∨ c = backslash) := by
  simp only [isPlain, Bool.and_eq_true, decide_eq_true_eq, bne_iff_ne, ne_eq] at h
  tauto

theorem py_escape_plain (c : Char) (h : isPlain c = true) : Py.escape c = [c] := by
  obtain ⟨h1, h2, h3⟩ := isPlain_spec c h
  rw [Py.escape, if_neg h3, if_neg (by omega), if_neg (by omega), if_neg (by omega),
    if_neg (by omega), if_neg (by omega), if_pos ⟨h1, h2⟩]

theorem ts_escape_plain (c : Char) (h : isPlain c = true) : Ts.escape c = [c] := by
  obtain ⟨h1, h2, h3⟩ := isPlain_spec c h
  rw [Ts.escape, if_neg h3, if_neg (by omega), if_neg (by omega), if_neg (by omega),
    if_neg (by omega), if_neg (by omega), if_neg (by omega)]

theorem go_escape_plain (table : Char → Bool) (c : Char) (h : isPlain c = true) :
    Go.escape table c = [c] := by
  obtain ⟨h1, h2, h3⟩ := isPlain_spec c h
  have hp : Go.isPrint table c = true := by
    rw [Go.isPrint, if_pos (by omega)]
    simp [h1, h2]
  rw [Go.escape, if_neg h3, if_pos hp]

theorem quoteWith_congr (f g : Char → List Char) (s : String) (hs : s.toList.all isPlain = true)
    (hf : ∀ c, isPlain c = true → f c = [c]) (hg : ∀ c, isPlain c = true → g c = [c]) :
    quoteWith f s = quoteWith g s := by
  have h : s.toList.flatMap f = s.toList.flatMap g := by
    refine List.flatMap_congr fun c hc => ?_
    have hp := List.all_eq_true.mp hs c hc
    rw [hf c hp, hg c hp]
  rw [quoteWith, quoteWith, h]

theorem coord_plain (n : ℕ) : (coord n).toList.all isPlain = true := by
  have halpha : alphabet.all isPlain = true := rfl
  simp only [coord, b64url, String.toList_ofList, List.all_eq_true]
  exact fun c hc => List.all_eq_true.mp halpha c (encode_mem_alphabet _ c hc)

/-! ### Thumbprints and JWKs -/

/-- The RFC 7638 text: the four required members in the order of their names. -/
def canonicalWith (escape : Char → List Char) (crv kty x y : String) : String :=
  let field (name value : String) := quoteWith escape name ++ ":" ++ quoteWith escape value
  "\x7b" ++ field "crv" crv ++ "," ++ field "kty" kty ++ "," ++ field "x" x ++ "," ++
    field "y" y ++ "\x7d"

/-- SHA-256 of the bytes of a text. -/
abbrev Hash := String → List Byte

def thumbprintWith (escape : Char → List Char) (sha256 : Hash) (crv kty x y : String) : String :=
  b64url (sha256 (canonicalWith escape crv kty x y))

/-- A JWK in the order all three implementations write its members. -/
def jwkMembers (kty crv x y kid : String) : Members :=
  [("kty", .str kty), ("crv", .str crv), ("x", .str x), ("y", .str y), ("kid", .str kid),
    ("use", .str jwtSvidUse), ("alg", .str algorithm)]

namespace Py

def jwkThumbprint (sha256 : Hash) (crv kty x y : String) : String :=
  thumbprintWith escape sha256 crv kty x y

/-- `public_jwk` on the public numbers of any EC key: the curve is not looked
at, and `to_bytes` raises `OverflowError` (`none`) on a wider coordinate. -/
def publicJwk (sha256 : Hash) (x y : ℕ) : Option Members :=
  if x < 256 ^ coordLength ∧ y < 256 ^ coordLength then
    some (jwkMembers "EC" "P-256" (coord x) (coord y)
      (jwkThumbprint sha256 "P-256" "EC" (coord x) (coord y)))
  else none

end Py

namespace Ts

/-- What `key.export` with format `jwk` gives of a private key. -/
structure ExportedJwk where
  kty : String
  crv : String
  x : String
  y : String

/-- Node exports the coordinates at the fixed width of the curve. -/
def exportJwk (p : Point) : ExportedJwk := ⟨"EC", "P-256", coord p.x, coord p.y⟩

def jwkThumbprint (sha256 : Hash) (crv kty x y : String) : String :=
  thumbprintWith escape sha256 crv kty x y

def publicJwk (sha256 : Hash) (exported : ExportedJwk) : Members :=
  jwkMembers exported.kty exported.crv exported.x exported.y
    (jwkThumbprint sha256 exported.crv exported.kty exported.x exported.y)

end Ts

namespace Go

structure JWK where
  kty : String
  crv : String
  x : String
  y : String
  kid : String
  use : String
  alg : String
  deriving DecidableEq

/-- `json.Marshal` of a `JWK`. -/
def JWK.marshal (j : JWK) : Json :=
  .obj [("kty", .str j.kty), ("crv", .str j.crv), ("x", .str j.x), ("y", .str j.y),
    ("kid", .str j.kid), ("use", .str j.use), ("alg", .str j.alg)]

def thumbprint (table : Char → Bool) (sha256 : Hash) (j : JWK) : String :=
  thumbprintWith (escape table) sha256 j.crv j.kty j.x j.y

/-- The JWK `parsePrivateKeyPEM` derives from a P-256 key. -/
def publicJwk (table : Char → Bool) (sha256 : Hash) (p : Point) : JWK :=
  let jwk : JWK := ⟨"EC", "P-256", coord p.x, coord p.y, "", jwtSvidUse, algorithm⟩
  { jwk with kid := thumbprint table sha256 jwk }

end Go

namespace Point

def kid (sha256 : Hash) (p : Point) : String :=
  thumbprintWith Py.escape sha256 "P-256" "EC" (coord p.x) (coord p.y)

/-- The public JWK of a P-256 key. -/
def jwk (sha256 : Hash) (p : Point) : Members :=
  jwkMembers "EC" "P-256" (coord p.x) (coord p.y) (p.kid sha256)

end Point

/-- The canonical text is the same under every quoting rule that leaves plain
characters alone. -/
theorem canonical_congr (f g : Char → List Char) (hf : ∀ c, isPlain c = true → f c = [c])
    (hg : ∀ c, isPlain c = true → g c = [c]) (p : Point) :
    canonicalWith f "P-256" "EC" (coord p.x) (coord p.y) =
      canonicalWith g "P-256" "EC" (coord p.x) (coord p.y) := by
  have hq : ∀ s : String, s.toList.all isPlain = true → quoteWith f s = quoteWith g s :=
    fun s hs => quoteWith_congr f g s hs hf hg
  simp only [canonicalWith]
  rw [hq "crv" (by decide), hq "kty" (by decide), hq "x" (by decide), hq "y" (by decide),
    hq "P-256" (by decide), hq "EC" (by decide), hq _ (coord_plain p.x), hq _ (coord_plain p.y)]

theorem py_publicJwk (sha256 : Hash) (p : Point) :
    Py.publicJwk sha256 p.x p.y = some (p.jwk sha256) := by
  simp only [Py.publicJwk, p.x_lt, p.y_lt, and_self, if_true]
  rfl

theorem ts_publicJwk (sha256 : Hash) (p : Point) :
    Ts.publicJwk sha256 (Ts.exportJwk p) = p.jwk sha256 := by
  simp only [Ts.publicJwk, Ts.exportJwk, Ts.jwkThumbprint, Point.jwk, Point.kid, thumbprintWith,
    canonical_congr Ts.escape Py.escape ts_escape_plain py_escape_plain p]

theorem go_publicJwk_kid (table : Char → Bool) (sha256 : Hash) (p : Point) :
    (Go.publicJwk table sha256 p).kid = p.kid sha256 := by
  simp only [Go.publicJwk, Go.thumbprint, Point.kid, thumbprintWith,
    canonical_congr (Go.escape table) Py.escape (go_escape_plain table) py_escape_plain p]

theorem go_publicJwk (table : Char → Bool) (sha256 : Hash) (p : Point) :
    (Go.publicJwk table sha256 p).marshal = .obj (p.jwk sha256) := by
  have hk := go_publicJwk_kid table sha256 p
  simp only [Go.JWK.marshal, hk]
  rfl

/-- A JWK determines its key. -/
theorem jwk_injective (sha256 : Hash) {p q : Point} (h : p.jwk sha256 = q.jwk sha256) : p = q := by
  simp only [Point.jwk, jwkMembers, List.cons.injEq, Prod.mk.injEq, Json.str.injEq, true_and] at h
  exact Point.ext_xy (coord_injective p.x_lt q.x_lt h.1) (coord_injective p.y_lt q.y_lt h.2.1)

end Spiffile
