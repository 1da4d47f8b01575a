import Mathlib.Data.List.GetD
import Mathlib.Tactic.NormNum

/-!
# Unpadded base64url and big-endian numbers

RFC 4648 section 5 without padding, encoder and decoder, and fixed-width
big-endian byte strings. The decoder follows the raw decoders in use: line
breaks are skipped, every other foreign character is refused, and the unused
low bits of the last character are not looked at.
-/

namespace Base64Url

abbrev Byte := Fin 256

def alphabet : List Char :=
  "ABCDEFGHIJKLMNOPQRSTUVWXYZabcdefghijklmnopqrstuvwxyz0123456789-_".toList

def charOf (n : ℕ) : Char := alphabet.getD n 'A'

def valueOf (c : Char) : Option ℕ := alphabet.findIdx? (· == c)

theorem valueOf_charOf (n : ℕ) (h : n < 64) : valueOf (charOf n) = some n := by
  have hall : ∀ m < 64, valueOf (charOf m) = some m := by decide +kernel
  exact hall n h

theorem charOf_mem (n : ℕ) : charOf n ∈ alphabet := by
  unfold charOf
  by_cases h : n < alphabet.length
  · rw [List.getD_eq_getElem _ _ h]
    exact List.getElem_mem h
  · rw [List.getD_eq_default _ _ (by omega)]
    decide +kernel

def encode : List Byte → List Char
  | [] => []
  | [a] => [charOf (a.val / 4), charOf (a.val % 4 * 16)]
  | [a, b] => [charOf (a.val / 4), charOf (a.val % 4 * 16 + b.val / 16), charOf (b.val % 16 * 4)]
  | a :: b :: c :: rest =>
    charOf (a.val / 4) :: charOf (a.val % 4 * 16 + b.val / 16) ::
      charOf (b.val % 16 * 4 + c.val / 64) :: charOf (c.val % 64) :: encode rest

def byte (n : ℕ) : Byte := ⟨n % 256, Nat.mod_lt _ (by norm_num)⟩

theorem byte_val (b : Byte) (n : ℕ) (h : n = b.val) : byte n = b := by
  apply Fin.ext
  simp only [byte, h]
  exact Nat.mod_eq_of_lt b.isLt

/-- Groups of four six-bit values; a last group of two or three carries one or
two bytes, a last group of one carries none and is refused. -/
def decodeValues : List ℕ → Option (List Byte)
  | [] => some []
  | [_] => none
  | [p, q] => some [byte (p * 4 + q / 16)]
  | [p, q, r] => some [byte (p * 4 + q / 16), byte (q % 16 * 16 + r / 4)]
  | p :: q :: r :: s :: rest =>
    (decodeValues rest).map fun bs =>
      byte (p * 4 + q / 16) :: byte (q % 16 * 16 + r / 4) :: byte (r % 4 * 64 + s) :: bs

def decode (cs : List Char) : Option (List Byte) :=
  ((cs.filter fun c => c != '\r' && c != '\n').mapM valueOf).bind decodeValues

/-- The six-bit values of an encoding. -/
def values : List Byte → List ℕ
  | [] => []
  | [a] => [a.val / 4, a.val % 4 * 16]
  | [a, b] => [a.val / 4, a.val % 4 * 16 + b.val / 16, b.val % 16 * 4]
  | a :: b :: c :: rest =>
    (a.val / 4) :: (a.val % 4 * 16 + b.val / 16) :: (b.val % 16 * 4 + c.val / 64) ::
      (c.val % 64) :: values rest

theorem encode_eq_map (bs : List Byte) : encode bs = (values bs).map charOf := by
  induction bs using encode.induct with
  | case1 => rfl
  | case2 a => rfl
  | case3 a b => rfl
  | case4 a b c rest ih => simp [encode, values, ih]

theorem values_lt (bs : List Byte) : ∀ v ∈ values bs, v < 64 := by
  induction bs using encode.induct with
  | case1 => simp [values]
  | case2 a =>
    have ha := a.isLt
    simp only [values, List.forall_mem_cons, List.not_mem_nil, false_imp_iff, implies_true, and_true]
    omega
  | case3 a b =>
    have ha := a.isLt
    have hb := b.isLt
    simp only [values, List.forall_mem_cons, List.not_mem_nil, false_imp_iff, implies_true, and_true]
    omega
  | case4 a b c rest ih =>
    have ha := a.isLt
    have hb := b.isLt
    have hc := c.isLt
    simp only [values, List.forall_mem_cons]
    exact ⟨by omega, by omega, by omega, by omega, ih⟩

theorem decodeValues_values (bs : List Byte) : decodeValues (values bs) = some bs := by
  induction bs using encode.induct with
  | case1 => rfl
  | case2 a =>
    have ha := a.isLt
    simp only [values, decodeValues, byte_val a (a.val / 4 * 4 + a.val % 4 * 16 / 16) (by omega)]
  | case3 a b =>
    have ha := a.isLt
    have hb := b.isLt
    simp only [values, decodeValues,
      byte_val a (a.val / 4 * 4 + (a.val % 4 * 16 + b.val / 16) / 16) (by omega),
      byte_val b ((a.val % 4 * 16 + b.val / 16) % 16 * 16 + b.val % 16 * 4 / 4) (by omega)]
  | case4 a b c rest ih =>
    have ha := a.isLt
    have hb := b.isLt
    have hc := c.isLt
    simp only [values, decodeValues, ih, Option.map_some,
      byte_val a (a.val / 4 * 4 + (a.val % 4 * 16 + b.val / 16) / 16) (by omega),
      byte_val b ((a.val % 4 * 16 + b.val / 16) % 16 * 16 + (b.val % 16 * 4 + c.val / 64) / 4)
        (by omega),
      byte_val c ((b.val % 16 * 4 + c.val / 64) % 4 * 64 + c.val % 64) (by omega)]

theorem mapM_valueOf (vs : List ℕ) (h : ∀ v ∈ vs, v < 64) :
    (vs.map charOf).mapM valueOf = some vs := by
  induction vs with
  | nil => rfl
  | cons v vs ih =>
    rw [List.forall_mem_cons] at h
    simp [List.mapM_cons, valueOf_charOf v h.1, ih h.2]

theorem encode_mem_alphabet (bs : List Byte) : ∀ c ∈ encode bs, c ∈ alphabet := by
  rw [encode_eq_map]
  intro c hc
  obtain ⟨v, -, rfl⟩ := List.mem_map.mp hc
  exact charOf_mem v

theorem decode_encode (bs : List Byte) : decode (encode bs) = some bs := by
  have hkeep : (encode bs).filter (fun c => c != '\r' && c != '\n') = encode bs := by
    have halpha : (alphabet.all fun c => c != '\r' && c != '\n') = true := by decide +kernel
    exact List.filter_eq_self.mpr fun c hc =>
      List.all_eq_true.mp halpha c (encode_mem_alphabet bs c hc)
  unfold decode
  rw [hkeep, encode_eq_map, mapM_valueOf _ (values_lt bs)]
  exact decodeValues_values bs

/-- The length of the encoding, three bytes to four characters. -/
theorem length_encode (bs : List Byte) : (encode bs).length = (bs.length * 4 + 2) / 3 := by
  induction bs using encode.induct with
  | case1 => rfl
  | case2 a => simp [encode]
  | case3 a b => simp [encode]
  | case4 a b c rest ih =>
    simp only [encode, List.length_cons, ih]
    omega

theorem encode_injective : Function.Injective encode := by
  intro a b h
  have hd := congrArg decode h
  rw [decode_encode, decode_encode] at hd
  exact Option.some_inj.mp hd

/-! ### Big-endian numbers -/

/-- The low `n` bytes of a number, most significant first. -/
def beBytes : ℕ → ℕ → List Byte
  | 0, _ => []
  | n + 1, x => beBytes n (x / 256) ++ [byte x]

theorem length_beBytes (n x : ℕ) : (beBytes n x).length = n := by
  induction n generalizing x with
  | zero => rfl
  | succ n ih => rw [beBytes, List.length_append, ih, List.length_singleton]

def beValue (bs : List Byte) : ℕ := bs.foldl (fun acc b => acc * 256 + b.val) 0

theorem beValue_append_byte (bs : List Byte) (b : Byte) :
    beValue (bs ++ [b]) = beValue bs * 256 + b.val := by
  simp [beValue, List.foldl_append]

theorem beValue_beBytes (n x : ℕ) (h : x < 256 ^ n) : beValue (beBytes n x) = x := by
  induction n generalizing x with
  | zero =>
    have hx : x = 0 := by simpa using h
    rw [hx]
    rfl
  | succ n ih =>
    have hdiv : x / 256 < 256 ^ n := by
      rw [pow_succ] at h
      exact Nat.div_lt_of_lt_mul (by omega)
    rw [beBytes, beValue_append_byte, ih _ hdiv]
    simp only [byte]
    omega

end Base64Url
