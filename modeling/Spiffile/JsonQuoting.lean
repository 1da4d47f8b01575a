import Spiffile.JsonLayout

/-!
# Quoting

A string that Python, TypeScript or Go quotes reads back as it was: escapes of
one letter, code units in hexadecimal, and surrogate pairs for what Python puts
in two of them.
-/

namespace Spiffile

open JsonText

namespace Go

/-- A string as `encoding/json` writes it: what HTML or JavaScript would take for
markup is escaped too. -/
def escapeJson (c : Char) : List Char :=
  if c = quoteMark ∨ c = backslash then [backslash, c]
  else if c.toNat = 8 then [backslash, 'b']
  else if c.toNat = 9 then [backslash, 't']
  else if c.toNat = 10 then [backslash, 'n']
  else if c.toNat = 12 then [backslash, 'f']
  else if c.toNat = 13 then [backslash, 'r']
  else if c.toNat < 32 ∨ c = '<' ∨ c = '>' ∨ c = '&' ∨ c.toNat = 0x2028 ∨ c.toNat = 0x2029 then
    backslash :: 'u' :: hex 4 c.toNat
  else [c]

end Go

theorem hexVal_hexDigit (n : ℕ) : hexVal (hexDigit n) = some (n % 16) := by
  have h : ∀ d < 16, hexVal ("0123456789abcdef".toList.getD d '0') = some d := by decide
  exact h (n % 16) (Nat.mod_lt n (by decide))

theorem hexDigits_hex (k n : ℕ) (rest : List Char) :
    hexDigits k (hex k n ++ rest) = some (n % 16 ^ k, rest) := by
  induction k generalizing n rest with
  | zero => simp [hexDigits, hex, Reader.done, Nat.mod_one]
  | succ k ih =>
    have hdigit : JsonText.hexDigit (hexDigit n :: rest) = some (n % 16, rest) := by
      rw [JsonText.hexDigit, Reader.bind_of (Reader.next_cons _ _), hexVal_hexDigit]
      rfl
    rw [hex, List.append_assoc, List.singleton_append, hexDigits, Reader.bind_of (ih _ _), Reader.map,
      Reader.bind_of hdigit, pow_succ, Nat.mul_comm (16 ^ k), Nat.mod_mul, Nat.add_comm]
    rfl

theorem hexDigits_unit {n : ℕ} (hn : n < 65536) (rest : List Char) :
    hexDigits 4 (hex 4 n ++ rest) = some (n, rest) := by
  have hmod : n % 16 ^ 4 = n := Nat.mod_eq_of_lt hn
  rw [hexDigits_hex, hmod]

/-- A code unit that is no half of a pair. -/
theorem unicode_hex {c : Char} (hc : c.toNat < 65536) (rest : List Char) :
    unicode (hex 4 c.toNat ++ rest) = some (c, rest) := by
  have hvalid : c.toNat < 0xd800 ∨ 0xdfff < c.toNat ∧ c.toNat < 0x110000 := c.valid
  rw [unicode, Reader.bind_of (hexDigits_unit hc _), if_neg (by omega), if_neg (by omega),
    Char.ofNat_toNat]
  rfl

theorem unicode_pair {c : Char} (hc : 65536 ≤ c.toNat) (rest : List Char) :
    unicode (hex 4 (55296 + (c.toNat - 65536) / 1024) ++
      (backslash :: 'u' :: hex 4 (56320 + (c.toNat - 65536) % 1024) ++ rest)) = some (c, rest) := by
  have hvalid : c.toNat < 0xd800 ∨ 0xdfff < c.toNat ∧ c.toNat < 0x110000 := c.valid
  have htokens : Reader.tokens [backslash, 'u']
      (backslash :: 'u' :: hex 4 (56320 + (c.toNat - 65536) % 1024) ++ rest) =
        some ((), hex 4 (56320 + (c.toNat - 65536) % 1024) ++ rest) :=
    Reader.tokens_append [backslash, 'u'] _
  have hvalue : 0x10000 + (55296 + (c.toNat - 65536) / 1024 - 0xd800) * 1024 +
      (56320 + (c.toNat - 65536) % 1024 - 0xdc00) = c.toNat := by omega
  rw [unicode, Reader.bind_of (hexDigits_unit (by omega) _), if_pos (by omega),
    Reader.bind_of htokens, Reader.bind_of (hexDigits_unit (by omega) _), if_pos (by omega), hvalue,
    Char.ofNat_toNat]
  rfl

theorem char_escaped {text rest : List Char} {c : Char} (h : escaped text = some (c, rest)) :
    char (backslash :: text) = some (some c, rest) := by
  rw [char, Reader.bind_of (Reader.next_cons _ _), if_neg (by decide), if_pos rfl, Reader.map,
    Reader.bind_of h]
  rfl

theorem char_unicode {text rest : List Char} {c : Char} (h : unicode text = some (c, rest)) :
    char (backslash :: 'u' :: text) = some (some c, rest) := char_escaped h

theorem char_self {c : Char} (hmark : ¬ (c = quoteMark ∨ c = backslash)) (hc : ¬ c.toNat < 32)
    (rest : List Char) : char (c :: rest) = some (some c, rest) := by
  rw [char, Reader.bind_of (Reader.next_cons _ _), if_neg fun h => hmark (Or.inl h),
    if_neg fun h => hmark (Or.inr h), if_neg hc]
  rfl

theorem char_mark {c : Char} (hmark : c = quoteMark ∨ c = backslash) (rest : List Char) :
    char ([backslash, c] ++ rest) = some (some c, rest) := by
  refine char_escaped ?_
  rcases hmark with rfl | rfl
  · rfl
  · rfl

/-- The escapes of one letter. -/
theorem char_letter {c letter : Char} {n : ℕ} (hc : c.toNat = n) (rest : List Char)
    (h : escaped (letter :: rest) = some (Char.ofNat n, rest)) :
    char ([backslash, letter] ++ rest) = some (some c, rest) := by
  have hchar : Char.ofNat n = c := by rw [← hc, Char.ofNat_toNat]
  rw [hchar] at h
  exact char_escaped h

theorem ts_quotes : Quotes Ts.escape := by
  intro c rest
  unfold Ts.escape
  split_ifs with hmark h8 h9 h10 h12 h13 hlow
  · exact char_mark hmark rest
  · exact char_letter h8 rest rfl
  · exact char_letter h9 rest rfl
  · exact char_letter h10 rest rfl
  · exact char_letter h12 rest rfl
  · exact char_letter h13 rest rfl
  · exact char_unicode (unicode_hex (by omega) rest)
  · exact char_self hmark hlow rest

theorem go_quotes : Quotes Go.escapeJson := by
  intro c rest
  unfold Go.escapeJson
  split_ifs with hmark h8 h9 h10 h12 h13 hcode
  · exact char_mark hmark rest
  · exact char_letter h8 rest rfl
  · exact char_letter h9 rest rfl
  · exact char_letter h10 rest rfl
  · exact char_letter h12 rest rfl
  · exact char_letter h13 rest rfl
  · refine char_unicode (unicode_hex ?_ rest)
    rcases hcode with h | rfl | rfl | rfl | h | h
    · omega
    · decide
    · decide
    · decide
    · omega
    · omega
  · exact char_self hmark (fun h => hcode (Or.inl h)) rest

theorem py_quotes : Quotes Py.escape := by
  intro c rest
  unfold Py.escape
  split_ifs with hmark h8 h9 h10 h12 h13 hascii hcode
  · exact char_mark hmark rest
  · exact char_letter h8 rest rfl
  · exact char_letter h9 rest rfl
  · exact char_letter h10 rest rfl
  · exact char_letter h12 rest rfl
  · exact char_letter h13 rest rfl
  · exact char_self hmark (by omega) rest
  · exact char_unicode (unicode_hex hcode rest)
  · -- beyond the first plane, two code units
    have hpair := unicode_pair (c := c) (by omega) rest
    dsimp only
    rw [List.append_assoc]
    exact char_unicode hpair

end Spiffile
