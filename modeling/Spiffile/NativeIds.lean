import Spiffile.Lib.Units
import Spiffile.Mint

/-!
# SPIFFE IDs in memory

The parsers of `SpiffeId.lean` once more, on the strings the three languages
have: Python compares code points, JavaScript's regular expressions match
UTF-16 units, and Go cuts bytes and decodes the runes of each part. Lone
surrogates and bytes that are no UTF-8 are strings here too.
-/

namespace Spiffile

/-- The units of an ASCII text, in every encoding. -/
def asciiUnits (s : String) : List ℕ := s.toList.map Char.toNat

/-- `IdRules` on units. -/
structure UnitRules where
  cut : List ℕ → List ℕ × Option (List ℕ)
  trustDomain : List ℕ → Bool
  segment : List ℕ → Bool

def checkSegmentUnits (ok : List ℕ → Bool) : List (List ℕ) → Option IdFault
  | [] => none
  | segment :: rest =>
    if segment = [] then some .emptySegment
    else if segment = asciiUnits "." ∨ segment = asciiUnits ".." then
      some (.relativeSegment (String.ofList (segment.map Char.ofNat)))
    else if ok segment then checkSegmentUnits ok rest
    else some .segmentChars

/-- The trust domain and the path of a SPIFFE ID. -/
def parseUnits (r : UnitRules) (value : List ℕ) : Except IdFault (List ℕ × List ℕ) :=
  if ¬ (asciiUnits scheme).isPrefixOf value then .error .missingScheme
  else
    let parts := r.cut (value.drop (asciiUnits scheme).length)
    if parts.1 = [] then .error .emptyTrustDomain
    else if ¬ r.trustDomain parts.1 then .error .trustDomainChars
    else
      match parts.2 with
      | none => .ok (parts.1, [])
      | some path =>
        if path = [] then .error .trailingSlash
        else
          match checkSegmentUnits r.segment (path.splitOn '/'.toNat) with
          | some fault => .error fault
          | none => .ok (parts.1, '/'.toNat :: path)

/-- `__str__`, `toString` and `String`. -/
def printUnits (id : List ℕ × List ℕ) : List ℕ := asciiUnits scheme ++ id.1 ++ id.2

namespace Py

def partitionUnits : List ℕ → List ℕ × Option (List ℕ)
  | [] => ([], none)
  | u :: v =>
    if u = '/'.toNat then ([], some v) else (u :: (partitionUnits v).1, (partitionUnits v).2)

def unitRules : UnitRules where
  cut := partitionUnits
  trustDomain v := v.all (trustDomainChars.map Char.toNat).contains
  segment v := v.all (pathSegmentChars.map Char.toNat).contains

end Py

namespace Ts

def unitInRange (lo hi : Char) (u : ℕ) : Bool := decide (lo.toNat ≤ u) && decide (u ≤ hi.toNat)

def trustDomainUnit (u : ℕ) : Bool :=
  unitInRange 'a' 'z' u || unitInRange '0' '9' u || u == '.'.toNat || u == '_'.toNat ||
    u == '-'.toNat

def pathSegmentUnit (u : ℕ) : Bool :=
  unitInRange 'a' 'z' u || unitInRange 'A' 'Z' u || unitInRange '0' '9' u || u == '.'.toNat ||
    u == '_'.toNat || u == '-'.toNat

def unitRules : UnitRules where
  cut := Units.cut '/'.toNat
  trustDomain v := !v.isEmpty && v.all trustDomainUnit
  segment v := !v.isEmpty && v.all pathSegmentUnit

end Ts

namespace Go

def runeError : ℕ := 0xFFFD

/-- The second byte a first byte admits, between two bounds. -/
def acceptLo (s0 : ℕ) : ℕ := if s0 = 0xE0 then 0xA0 else if s0 = 0xF0 then 0x90 else 0x80

def acceptHi (s0 : ℕ) : ℕ := if s0 = 0xED then 0x9F else if s0 = 0xF4 then 0x8F else 0xBF

/-- `utf8.DecodeRuneInString` on a first byte and what follows: the rune and
the number of bytes it takes. -/
def decodeRune (s0 : ℕ) (rest : List ℕ) : ℕ × ℕ :=
  if s0 < 0x80 then (s0, 1)
  else if 0xC2 ≤ s0 ∧ s0 ≤ 0xDF then
    match rest with
    | s1 :: _ =>
      if acceptLo s0 ≤ s1 ∧ s1 ≤ acceptHi s0 then (s0 % 0x20 * 0x40 + s1 % 0x40, 2) else (runeError, 1)
    | _ => (runeError, 1)
  else if 0xE0 ≤ s0 ∧ s0 ≤ 0xEF then
    match rest with
    | s1 :: s2 :: _ =>
      if acceptLo s0 ≤ s1 ∧ s1 ≤ acceptHi s0 ∧ 0x80 ≤ s2 ∧ s2 ≤ 0xBF then
        (s0 % 0x10 * 0x1000 + s1 % 0x40 * 0x40 + s2 % 0x40, 3)
      else (runeError, 1)
    | _ => (runeError, 1)
  else if 0xF0 ≤ s0 ∧ s0 ≤ 0xF4 then
    match rest with
    | s1 :: s2 :: s3 :: _ =>
      if acceptLo s0 ≤ s1 ∧ s1 ≤ acceptHi s0 ∧ 0x80 ≤ s2 ∧ s2 ≤ 0xBF ∧ 0x80 ≤ s3 ∧ s3 ≤ 0xBF then
        (s0 % 0x08 * 0x40000 + s1 % 0x40 * 0x1000 + s2 % 0x40 * 0x40 + s3 % 0x40, 4)
      else (runeError, 1)
    | _ => (runeError, 1)
  else (runeError, 1)

/-- The runes `range` yields once some bytes of the last one are passed. -/
def runesAfter : ℕ → List ℕ → List ℕ
  | _, [] => []
  | skip + 1, _ :: v => runesAfter skip v
  | 0, s0 :: v => (decodeRune s0 v).1 :: runesAfter ((decodeRune s0 v).2 - 1) v
  termination_by structural _ v => v

/-- `for _, r := range s`. -/
def runes (v : List ℕ) : List ℕ := runesAfter 0 v

def isTrustDomainRune (r : ℕ) : Bool :=
  (decide (r ≥ 'a'.toNat) && decide (r ≤ 'z'.toNat)) ||
    (decide (r ≥ '0'.toNat) && decide (r ≤ '9'.toNat)) ||
    r == '.'.toNat || r == '_'.toNat || r == '-'.toNat

def isPathSegmentRune (r : ℕ) : Bool :=
  (decide (r ≥ 'a'.toNat) && decide (r ≤ 'z'.toNat)) ||
    (decide (r ≥ 'A'.toNat) && decide (r ≤ 'Z'.toNat)) ||
    (decide (r ≥ '0'.toNat) && decide (r ≤ '9'.toNat)) ||
    r == '.'.toNat || r == '_'.toNat || r == '-'.toNat

/-- `strings.Cut` and `strings.Split` at the byte of a slash. -/
def unitRules : UnitRules where
  cut := Units.cut '/'.toNat
  trustDomain v := (runes v).all isTrustDomainRune
  segment v := (runes v).all isPathSegmentRune

/-! ### The runes of a text -/

theorem decodeRune_ascii (s0 : ℕ) (rest : List ℕ) (h : s0 < 128) : decodeRune s0 rest = (s0, 1) :=
  if_pos h

theorem acceptHi_le (s0 : ℕ) : acceptHi s0 ≤ 0xBF := by
  unfold acceptHi
  split_ifs <;> omega

theorem decodeRune_other (s0 : ℕ) (rest : List ℕ) (h : 128 ≤ s0) : 128 ≤ (decodeRune s0 rest).1 := by
  have herror : 128 ≤ runeError := by decide
  have hhi := acceptHi_le s0
  unfold decodeRune
  split_ifs with h1 h2 h3 h4
  · omega
  · split
    · split_ifs
      · dsimp only
        omega
      · exact herror
    · exact herror
  · split
    · split_ifs with hs
      · -- after `E0` the second byte is large enough, other lead bytes are themselves
        by_cases he : s0 = 0xE0
        · have hlo : acceptLo s0 = 0xA0 := by simp [acceptLo, he]
          rw [hlo] at hs
          dsimp only
          omega
        · dsimp only
          omega
      · exact herror
    · exact herror
  · split
    · split_ifs with hs
      · by_cases he : s0 = 0xF0
        · have hlo : acceptLo s0 = 0x90 := by simp [acceptLo, he]
          rw [hlo] at hs
          dsimp only
          omega
        · dsimp only
          omega
      · exact herror
    · exact herror
  · exact herror

/-- Only ASCII runes pass the tests, and those are bytes. -/
theorem all_runes (p : ℕ → Bool) (hp : ∀ u, 128 ≤ u → p u = false) (v : List ℕ) :
    (runes v).all p = v.all p := by
  unfold runes
  induction v with
  | nil => rfl
  | cons s0 v ih =>
    rw [runesAfter, List.all_cons, List.all_cons]
    by_cases h : s0 < 128
    · rw [decodeRune_ascii s0 v h]
      exact congrArg (p s0 && ·) ih
    · have hge : 128 ≤ s0 := by omega
      rw [hp _ (decodeRune_other s0 v hge), hp s0 hge, Bool.false_and, Bool.false_and]

theorem decodeRune_utf8 (c : Char) (rest : List ℕ) :
    ∃ s0 tail, Units.utf8 c = s0 :: tail ∧ decodeRune s0 (tail ++ rest) = (c.toNat, tail.length + 1) := by
  have hval : c.val.toNat = c.toNat := rfl
  have hvalid : c.toNat < 0xD800 ∨ 0xDFFF < c.toNat ∧ c.toNat < 0x110000 := c.valid
  generalize hn : c.toNat = n at hval hvalid
  unfold Units.utf8 String.utf8EncodeChar
  simp only [hval]
  split_ifs with h1 h2 h3
  · refine ⟨n, [], ?_, decodeRune_ascii n _ (by omega)⟩
    simp only [List.map_cons, List.map_nil, UInt8.toNat_ofNat']
    rw [Nat.mod_eq_of_lt (by omega)]
  · refine ⟨n / 64 + 0xC0, [n % 64 + 0x80], ?_, ?_⟩
    · simp only [List.map_cons, List.map_nil, UInt8.toNat_ofNat', List.cons.injEq, and_true]
      omega
    · have hlo : acceptLo (n / 64 + 0xC0) = 0x80 := by
        rw [acceptLo, if_neg (by omega), if_neg (by omega)]
      have hhi : acceptHi (n / 64 + 0xC0) = 0xBF := by
        rw [acceptHi, if_neg (by omega), if_neg (by omega)]
      unfold decodeRune
      rw [if_neg (by omega), if_pos (by omega)]
      simp only [List.cons_append, hlo, hhi]
      rw [if_pos (by omega)]
      simp only [List.length_singleton, Prod.mk.injEq, and_true]
      omega
  · refine ⟨n / 4096 + 0xE0, [n / 64 % 64 + 0x80, n % 64 + 0x80], ?_, ?_⟩
    · simp only [List.map_cons, List.map_nil, UInt8.toNat_ofNat', List.cons.injEq, and_true]
      omega
    · unfold decodeRune
      rw [if_neg (by omega), if_neg (by omega), if_pos (by omega)]
      simp only [List.cons_append]
      rw [if_pos]
      · simp only [List.length_cons, List.length_nil, Prod.mk.injEq, and_true]
        omega
      · unfold acceptLo acceptHi
        split_ifs <;> omega
  · refine ⟨n / 262144 + 0xF0, [n / 4096 % 64 + 0x80, n / 64 % 64 + 0x80, n % 64 + 0x80], ?_, ?_⟩
    · simp only [List.map_cons, List.map_nil, UInt8.toNat_ofNat', List.cons.injEq, and_true]
      omega
    · unfold decodeRune
      rw [if_neg (by omega), if_neg (by omega), if_neg (by omega), if_pos (by omega)]
      simp only [List.cons_append]
      rw [if_pos]
      · simp only [List.length_cons, List.length_nil, Prod.mk.injEq, and_true]
        omega
      · unfold acceptLo acceptHi
        split_ifs <;> omega

theorem runesAfter_append (passed v : List ℕ) :
    runesAfter passed.length (passed ++ v) = runesAfter 0 v := by
  induction passed with
  | nil => rfl
  | cons s0 passed ih => exact ih

/-- A valid text is read as its characters. -/
theorem runes_utf8 (cs : List Char) : runes (Units.encode Units.utf8 cs) = cs.map Char.toNat := by
  unfold runes
  induction cs with
  | nil => rfl
  | cons c cs ih =>
    obtain ⟨s0, tail, hbytes, hrune⟩ := decodeRune_utf8 c (Units.encode Units.utf8 cs)
    rw [Units.encode_cons, List.map_cons, hbytes, List.cons_append, runesAfter, hrune,
      Nat.add_sub_cancel, runesAfter_append, ih]

end Go

/-! ### The three parsers are one function -/

/-- A class of ASCII characters, on units. -/
def classUnit (p : Char → Bool) (u : ℕ) : Bool := decide (u < 128) && p (Char.ofNat u)

/-- The rules all three follow. -/
def plainRules : UnitRules where
  cut := Units.cut '/'.toNat
  trustDomain v := v.all (classUnit Go.isTrustDomainChar)
  segment v := v.all (classUnit Go.isPathSegmentChar)

theorem classUnit_other (p : Char → Bool) (u : ℕ) (h : 128 ≤ u) : classUnit p u = false := by
  rw [classUnit, decide_eq_false (by omega), Bool.false_and]

theorem class_ext (p : ℕ → Bool) (q : Char → Bool) (hlow : ∀ u < 128, p u = classUnit q u)
    (hp : ∀ u, 128 ≤ u → p u = false) : p = classUnit q := by
  funext u
  by_cases hu : u < 128
  · exact hlow u hu
  · rw [hp u (by omega), classUnit_other q u (by omega)]

theorem contains_other (units : List ℕ) (hunits : (units.all fun u => u < 128) = true) (u : ℕ)
    (hu : 128 ≤ u) : units.contains u = false := by
  rw [List.contains_eq_mem, decide_eq_false_iff_not]
  intro hm
  have := of_decide_eq_true (List.all_eq_true.mp hunits u hm)
  omega

theorem py_trustDomainUnits :
    (Py.trustDomainChars.map Char.toNat).contains = classUnit Go.isTrustDomainChar :=
  class_ext _ _ (by decide +kernel) (contains_other _ (by decide))

theorem py_pathSegmentUnits :
    (Py.pathSegmentChars.map Char.toNat).contains = classUnit Go.isPathSegmentChar :=
  class_ext _ _ (by decide +kernel) (contains_other _ (by decide))

theorem isPathSegmentRune_other (u : ℕ) (hu : 128 ≤ u) : Go.isPathSegmentRune u = false := by
  have hz : 'z'.toNat = 122 := rfl
  have hZ : 'Z'.toNat = 90 := rfl
  have h9 : '9'.toNat = 57 := rfl
  have hdot : '.'.toNat = 46 := rfl
  have hunder : '_'.toNat = 95 := rfl
  have hdash : '-'.toNat = 45 := rfl
  simp only [Go.isPathSegmentRune, hz, hZ, h9, hdot, hunder, hdash, Bool.or_eq_false_iff,
    Bool.and_eq_false_iff, decide_eq_false_iff_not, beq_eq_false_iff_ne]
  omega

theorem isTrustDomainRune_le (u : ℕ) (h : Go.isTrustDomainRune u = true) :
    Go.isPathSegmentRune u = true := by
  simp only [Go.isTrustDomainRune, Go.isPathSegmentRune, Bool.or_eq_true] at h ⊢
  tauto

theorem isTrustDomainRune_other (u : ℕ) (hu : 128 ≤ u) : Go.isTrustDomainRune u = false := by
  by_contra h
  have hs := isTrustDomainRune_le u (by simpa using h)
  rw [isPathSegmentRune_other u hu] at hs
  cases hs

theorem go_trustDomainRunes : Go.isTrustDomainRune = classUnit Go.isTrustDomainChar :=
  class_ext _ _ (by decide +kernel) isTrustDomainRune_other

theorem go_pathSegmentRunes : Go.isPathSegmentRune = classUnit Go.isPathSegmentChar :=
  class_ext _ _ (by decide +kernel) isPathSegmentRune_other

theorem partitionUnits_eq (v : List ℕ) : Py.partitionUnits v = Units.cut '/'.toNat v := by
  induction v with
  | nil => rfl
  | cons u v ih =>
    by_cases hu : u = '/'.toNat
    · rw [hu, Units.cut_cons_self]
      rfl
    · rw [Units.cut_cons_ne hu, Py.partitionUnits, if_neg hu, ih]

theorem checkSegmentUnits_congr (ok ok' : List ℕ → Bool) (h : ∀ v ≠ [], ok v = ok' v)
    (segments : List (List ℕ)) : checkSegmentUnits ok segments = checkSegmentUnits ok' segments := by
  induction segments with
  | nil => rfl
  | cons segment rest ih =>
    simp only [checkSegmentUnits, ih]
    by_cases hs : segment = []
    · simp [hs]
    · rw [h segment hs]

theorem parseUnits_congr (r r' : UnitRules) (hcut : ∀ v, r.cut v = r'.cut v)
    (htd : ∀ v ≠ [], r.trustDomain v = r'.trustDomain v)
    (hseg : ∀ v ≠ [], r.segment v = r'.segment v) (value : List ℕ) :
    parseUnits r value = parseUnits r' value := by
  unfold parseUnits
  simp only [hcut, checkSegmentUnits_congr _ _ hseg]
  by_cases hd : (r'.cut (value.drop (asciiUnits scheme).length)).1 = []
  · simp [hd]
  · simp only [htd _ hd]

namespace Impl

/-- The units of a string in an implementation's language. -/
def encodeChar : Impl → Char → List ℕ
  | python => Units.codePoints
  | typescript => Units.utf16
  | go => Units.utf8

def encode (impl : Impl) (s : String) : List ℕ := Units.encode impl.encodeChar s.toList

def unitRules : Impl → UnitRules
  | python => Py.unitRules
  | typescript => Ts.unitRules
  | go => Go.unitRules

/-- `SpiffeId.parse` and `ParseSpiffeID` on any string. -/
def parseUnits (impl : Impl) (value : List ℕ) : Except IdFault (List ℕ × List ℕ) :=
  Spiffile.parseUnits impl.unitRules value

theorem encodeChar_transparent (impl : Impl) : Units.Transparent impl.encodeChar := by
  cases impl with
  | python => exact Units.codePoints_transparent
  | typescript => exact Units.utf16_transparent
  | go => exact Units.utf8_transparent

theorem parseUnits_eq (impl : Impl) (value : List ℕ) :
    impl.parseUnits value = Spiffile.parseUnits plainRules value := by
  have hnonempty : ∀ v : List ℕ, v ≠ [] → v.isEmpty = false := by
    intro v hv
    simpa using hv
  cases impl with
  | python =>
    exact parseUnits_congr _ _ partitionUnits_eq
      (fun v _ => congrArg v.all py_trustDomainUnits) (fun v _ => congrArg v.all py_pathSegmentUnits)
      value
  | typescript =>
    refine parseUnits_congr Ts.unitRules plainRules (fun _ => rfl) ?_ ?_ value
    · intro v hv
      simp only [Ts.unitRules, hnonempty v hv, Bool.not_false, Bool.true_and]
      exact congrArg v.all go_trustDomainRunes
    · intro v hv
      simp only [Ts.unitRules, hnonempty v hv, Bool.not_false, Bool.true_and]
      exact congrArg v.all go_pathSegmentRunes
  | go =>
    refine parseUnits_congr Go.unitRules plainRules (fun _ => rfl) ?_ ?_ value
    · intro v _
      exact (Go.all_runes _ isTrustDomainRune_other v).trans (congrArg v.all go_trustDomainRunes)
    · intro v _
      exact (Go.all_runes _ isPathSegmentRune_other v).trans (congrArg v.all go_pathSegmentRunes)

end Impl

/-! ### Units and characters -/

/-- What a parser of texts finds, in units. -/
def unitResult : Except InvalidSpiffeId SpiffeId → Except IdFault (List ℕ × List ℕ)
  | .ok id => .ok (asciiUnits id.trustDomain, asciiUnits id.path)
  | .error e => .error e.fault

theorem classUnit_toNat (p : Char → Bool) (c : Char) (h : c.toNat < 128) :
    classUnit p c.toNat = p c := by
  rw [classUnit, decide_eq_true h, Char.ofNat_toNat, Bool.true_and]

section
variable {enc : Char → List ℕ}

theorem all_classUnit (henc : Units.Transparent enc) (p : Char → Bool)
    (hp : ∀ c : Char, 128 ≤ c.toNat → p c = false) (cs : List Char) :
    (Units.encode enc cs).all (classUnit p) = cs.all p :=
  henc.all_encode _ p (classUnit_toNat p) (classUnit_other p) hp cs

/-- The characters of a class are ASCII, so their units are the same in every
encoding. -/
theorem encode_class (henc : Units.Transparent enc) (p : Char → Bool)
    (hp : ∀ c : Char, 128 ≤ c.toNat → p c = false) (cs : List Char) (h : cs.all p = true) :
    Units.encode enc cs = asciiUnits (String.ofList cs) := by
  rw [asciiUnits, String.toList_ofList]
  refine henc.encode_ascii cs ?_
  intro c hc
  by_contra hge
  have hpc := List.all_eq_true.mp h c hc
  rw [hp c (by omega)] at hpc
  cases hpc

theorem checkSegmentUnits_encode (henc : Units.Transparent enc) (segments : List (List Char)) :
    checkSegmentUnits plainRules.segment (segments.map (Units.encode enc)) =
      checkSegments Go.idRules.segment segments := by
  induction segments with
  | nil => rfl
  | cons segment rest ih =>
    have hdot : Units.encode enc segment = asciiUnits "." ↔ segment = ['.'] :=
      henc.encode_eq_map_iff segment ['.'] (by simp)
    have hdots : Units.encode enc segment = asciiUnits ".." ↔ segment = ['.', '.'] :=
      henc.encode_eq_map_iff segment ['.', '.'] (by simp)
    have hclass : plainRules.segment (Units.encode enc segment) = Go.idRules.segment segment :=
      all_classUnit henc _ isPathSegmentChar_ascii segment
    simp only [List.map_cons, checkSegmentUnits, checkSegments, henc.encode_eq_nil, hdot, hdots,
      hclass, ih]
    split_ifs with h1 h2
    · rfl
    · -- the segment is one dot or two, and so are its units
      rcases h2 with h2 | h2
      · rw [hdot.mpr h2, h2]
        rfl
      · rw [hdots.mpr h2, h2]
        rfl
    · rfl
    · rfl

theorem plainRules_cut_encode (henc : Units.Transparent enc) (rest : List Char) :
    plainRules.cut (Units.encode enc rest) =
      (Units.encode enc (Go.cut rest).1, (Go.cut rest).2.map (Units.encode enc)) := by
  obtain ⟨hslash, hparts⟩ := cut_spec rest
  have hcut := henc.cut_encode '/' (by decide) (Go.cut rest).1
  cases hpath : (Go.cut rest).2 with
  | none =>
    rw [hpath, List.append_nil] at hparts
    have hnone := (hcut [] hslash).1
    rw [← hparts] at hnone ⊢
    exact hnone
  | some path =>
    rw [hpath] at hparts
    have hsome := (hcut path hslash).2
    rw [← hparts] at hsome
    exact hsome

theorem path_units (henc : Units.Transparent enc) (path : List Char)
    (h : checkSegments Go.idRules.segment (path.splitOn '/') = none) :
    Units.encode enc path = path.map Char.toNat := by
  have hsegs := (checkSegments_eq_none_iff (path.splitOn '/')).mp h
  refine henc.encode_ascii path ?_
  intro c hc
  by_contra hge
  rcases Units.mem_splitOn '/' hc with rfl | ⟨segment, hsegment, hcs⟩
  · exact hge (by decide)
  · have hclass := (hsegs segment hsegment).2.2.2 c hcs
    rw [isPathSegmentChar_ascii c (by omega)] at hclass
    cases hclass

theorem scheme_ascii : ∀ c ∈ scheme.toList, c.toNat < 128 := by
  intro c hc
  exact of_decide_eq_true
    (List.all_eq_true.mp (show scheme.toList.all (fun c => c.toNat < 128) = true by decide) c hc)

/-- On the units of a text the parser does what it does on the text. -/
theorem parseUnits_encode (henc : Units.Transparent enc) (s : String) :
    parseUnits plainRules (Units.encode enc s.toList) = unitResult (Go.parseSpiffeID s) := by
  unfold parseUnits Go.parseSpiffeID parseWith
  have hstart : (asciiUnits scheme).isPrefixOf (Units.encode enc s.toList) =
      scheme.toList.isPrefixOf s.toList :=
    henc.isPrefixOf_encode scheme.toList s.toList scheme_ascii
  rw [hstart]
  cases hpre : scheme.toList.isPrefixOf s.toList with
  | false => rfl
  | true =>
    obtain ⟨rest, hrest⟩ := List.isPrefixOf_iff_prefix.mp hpre
    have hunits : Units.encode enc s.toList = asciiUnits scheme ++ Units.encode enc rest := by
      rw [← hrest, Units.encode_append, henc.encode_ascii _ scheme_ascii]
      rfl
    have hchars : s.toList.drop scheme.toList.length = rest := by
      rw [← hrest, List.drop_left]
    rw [hunits, hchars, List.drop_left]
    have hcut : Go.idRules.cut rest = Go.cut rest := rfl
    rw [hcut]
    simp only [plainRules_cut_encode henc, henc.encode_eq_nil, not_true, if_false]
    have hdomain : plainRules.trustDomain (Units.encode enc (Go.cut rest).1) =
        Go.idRules.trustDomain (Go.cut rest).1 :=
      all_classUnit henc Go.isTrustDomainChar isTrustDomainChar_ascii _
    rw [hdomain]
    split_ifs with hempty htd
    · rfl
    · have hdomainUnits := encode_class henc _ isTrustDomainChar_ascii (Go.cut rest).1 htd
      rw [hdomainUnits]
      cases (Go.cut rest).2 with
      | none => rfl
      | some path =>
        have hcheck := checkSegmentUnits_encode henc (path.splitOn '/')
        simp only [Option.map_some, henc.encode_eq_nil, henc.splitOn_encode '/' (by decide), hcheck]
        split_ifs with hpath
        · rfl
        · cases hsegs : checkSegments Go.idRules.segment (path.splitOn '/') with
          | some fault => rfl
          | none =>
            have hpathUnits := path_units henc path hsegs
            simp only [unitResult, asciiUnits, String.toList_ofList, List.map_cons, hpathUnits]
    · rfl

end

/-! ### What is accepted, among all units -/

theorem classUnit_lt (p : Char → Bool) (u : ℕ) (h : classUnit p u = true) : u < 128 := by
  by_contra hge
  rw [classUnit_other p u (by omega)] at h
  cases h

theorem checkSegmentUnits_lt (segments : List (List ℕ))
    (h : checkSegmentUnits plainRules.segment segments = none) :
    ∀ segment ∈ segments, ∀ u ∈ segment, u < 128 := by
  induction segments with
  | nil =>
    intro segment hsegment
    cases hsegment
  | cons segment rest ih =>
    simp only [checkSegmentUnits] at h
    split_ifs at h with h1 h2 h3
    intro s hs u hu
    rcases List.mem_cons.mp hs with rfl | hs
    · exact classUnit_lt _ u (List.all_eq_true.mp h3 u hu)
    · exact ih h s hs u hu

/-- An accepted string is the one its result prints, and it is ASCII. -/
theorem parseUnits_ok (v : List ℕ) (id : List ℕ × List ℕ) (h : parseUnits plainRules v = .ok id) :
    printUnits id = v ∧ ∀ u ∈ v, u < 128 := by
  have hscheme : ∀ u ∈ asciiUnits scheme, u < 128 := by
    intro u hu
    obtain ⟨c, hc, rfl⟩ := List.mem_map.mp hu
    exact scheme_ascii c hc
  unfold parseUnits at h
  dsimp only at h
  split_ifs at h with hpre hempty htd
  obtain ⟨rest, hrest⟩ := List.isPrefixOf_iff_prefix.mp hpre
  have hdrop : v.drop (asciiUnits scheme).length = rest := by
    rw [← hrest, List.drop_left]
  rw [hdrop] at h htd
  have hdomain : ∀ u ∈ (Units.cut '/'.toNat rest).1, u < 128 := by
    intro u hu
    exact classUnit_lt _ u (List.all_eq_true.mp htd u hu)
  have hjoin := Units.cut_join '/'.toNat rest
  change (match (Units.cut '/'.toNat rest).2 with
    | none => _
    | some path => _) = _ at h
  cases hpath : (Units.cut '/'.toNat rest).2 with
  | none =>
    rw [hpath] at h hjoin
    rw [List.append_nil] at hjoin
    cases h
    rw [← hrest]
    constructor
    · rw [printUnits, List.append_nil]
      exact congrArg (asciiUnits scheme ++ ·) hjoin.symm
    · intro u hu
      rcases List.mem_append.mp hu with hu | hu
      · exact hscheme u hu
      · rw [hjoin] at hu
        exact hdomain u hu
  | some path =>
    rw [hpath] at h hjoin
    dsimp only at h hjoin
    split_ifs at h with hne
    cases hcheck : checkSegmentUnits plainRules.segment (path.splitOn '/'.toNat) with
    | some fault =>
      rw [hcheck] at h
      cases h
    | none =>
      rw [hcheck] at h
      cases h
      rw [← hrest]
      constructor
      · rw [printUnits, List.append_assoc]
        exact congrArg (asciiUnits scheme ++ ·) hjoin.symm
      · intro u hu
        rcases List.mem_append.mp hu with hu | hu
        · exact hscheme u hu
        · rw [hjoin] at hu
          rcases List.mem_append.mp hu with hu | hu
          · exact hdomain u hu
          · rcases List.mem_cons.mp hu with rfl | hu
            · decide
            · rcases Units.mem_splitOn '/'.toNat hu with rfl | ⟨segment, hsegment, hus⟩
              · decide
              · exact checkSegmentUnits_lt _ hcheck segment hsegment u hus

theorem toNat_ofNat_ascii : ∀ u < 128, (Char.ofNat u).toNat = u := by decide +kernel

/-- The units of a name: trust domain and path. -/
def SpiffeName.units (n : SpiffeName) : List ℕ × List ℕ :=
  (n.domain.map Char.toNat, n.pathChars.map Char.toNat)

theorem SpiffeName.render_ascii (n : SpiffeName) : ∀ c ∈ n.render.toList, c.toNat < 128 := by
  have hok := parseUnits_encode Units.codePoints_transparent n.render
  rw [parse_render] at hok
  intro c hc
  refine (parseUnits_ok _ _ hok).2 c.toNat ?_
  exact List.mem_flatMap.mpr ⟨c, hc, List.mem_singleton_self _⟩

theorem SpiffeName.printUnits_units (n : SpiffeName) : printUnits n.units = asciiUnits n.render := by
  simp [printUnits, SpiffeName.units, asciiUnits, SpiffeName.render]

/-- In each language the parser accepts the strings of the grammar and no
others, and finds the parts of the name. -/
theorem Impl.parseUnits_ok_iff (impl : Impl) (v : List ℕ) (id : List ℕ × List ℕ) :
    impl.parseUnits v = .ok id ↔ ∃ n : SpiffeName, v = asciiUnits n.render ∧ id = n.units := by
  rw [impl.parseUnits_eq]
  have hname : ∀ n : SpiffeName,
      Spiffile.parseUnits plainRules (asciiUnits n.render) = .ok n.units := by
    intro n
    have hok := parseUnits_encode Units.codePoints_transparent n.render
    rw [parse_render, Units.codePoints_transparent.encode_ascii _ n.render_ascii] at hok
    rw [asciiUnits, hok]
    simp [unitResult, SpiffeName.units, SpiffeName.toId, asciiUnits]
  constructor
  · intro hok
    obtain ⟨hprint, hascii⟩ := parseUnits_ok v id hok
    -- the units are those of a text, and that text is accepted too
    have htext : asciiUnits (String.ofList (v.map Char.ofNat)) = v := by
      rw [asciiUnits, String.toList_ofList, List.map_map]
      refine (List.map_congr_left fun u hu => ?_).trans (List.map_id v)
      exact toNat_ofNat_ascii u (hascii u hu)
    have henc : Units.encode Units.codePoints (String.ofList (v.map Char.ofNat)).toList = v := by
      rw [Units.codePoints_transparent.encode_ascii]
      · exact htext
      · intro c hc
        refine hascii c.toNat ?_
        rw [← htext]
        exact List.mem_map_of_mem hc
    have hparse := parseUnits_encode Units.codePoints_transparent (String.ofList (v.map Char.ofNat))
    rw [henc, hok] at hparse
    cases hgo : Go.parseSpiffeID (String.ofList (v.map Char.ofNat)) with
    | error e =>
      rw [hgo] at hparse
      cases hparse
    | ok id' =>
      rw [hgo] at hparse
      obtain ⟨n, hn, rfl⟩ := exists_name_of_parse _ _ hgo
      refine ⟨n, by rw [← hn, htext], ?_⟩
      rw [Except.ok.inj hparse]
      simp [SpiffeName.units, SpiffeName.toId, asciiUnits]
  · intro h
    obtain ⟨n, rfl, rfl⟩ := h
    exact hname n

/-- A text is parsed in its encoding as `parseSpiffeID` parses the text. -/
theorem Impl.parseUnits_encode (impl : Impl) (s : String) :
    impl.parseUnits (impl.encode s) = unitResult (Go.parseSpiffeID s) := by
  rw [impl.parseUnits_eq, Impl.encode, Spiffile.parseUnits_encode impl.encodeChar_transparent]

/-- The three parsers accept exactly the grammar, on whatever strings their
languages have, and treat every text alike; printing inverts parsing, parsing
inverts printing, and equal results come from equal strings. -/
theorem spiffe_id_grammar :
    (∀ (impl : Impl) (v : List ℕ) (id : List ℕ × List ℕ), impl.parseUnits v = .ok id ↔
      ∃ n : SpiffeName, v = asciiUnits n.render ∧ id = n.units) ∧
    (∀ (s : String) (impl impl' : Impl),
      impl.parseUnits (impl.encode s) = impl'.parseUnits (impl'.encode s)) ∧
    (∀ (impl : Impl) (v : List ℕ) (id : List ℕ × List ℕ), impl.parseUnits v = .ok id →
      printUnits id = v) ∧
    (∀ (impl : Impl) (n : SpiffeName), impl.parseUnits (printUnits n.units) = .ok n.units) ∧
    ∀ (impl impl' : Impl) (v v' : List ℕ) (id : List ℕ × List ℕ), impl.parseUnits v = .ok id →
      impl'.parseUnits v' = .ok id → v = v' := by
  have hprint : ∀ (impl : Impl) (v : List ℕ) (id : List ℕ × List ℕ),
      impl.parseUnits v = .ok id → printUnits id = v := by
    intro impl v id hok
    rw [impl.parseUnits_eq] at hok
    exact (parseUnits_ok v id hok).1
  refine ⟨Impl.parseUnits_ok_iff, ?_, hprint, ?_, ?_⟩
  · intro s impl impl'
    rw [impl.parseUnits_encode, impl'.parseUnits_encode]
  · intro impl n
    exact (impl.parseUnits_ok_iff _ _).mpr ⟨n, n.printUnits_units, rfl⟩
  · intro impl impl' v v' id hok hok'
    rw [← hprint impl v id hok, hprint impl' v' id hok']

theorem spiffe_id_grammar_sample :
    printUnits (asciiUnits "a.b", asciiUnits "/x") = asciiUnits "spiffe://a.b/x" :=
  spiffe_id_grammar.2.2.1 .typescript (asciiUnits "spiffe://a.b/x")
    (asciiUnits "a.b", asciiUnits "/x") (by decide +kernel)

/-- Bytes that are no UTF-8, and a lone surrogate. -/
example : Impl.go.parseUnits (asciiUnits "spiffe://a.b/" ++ [0xC3]) = .error .segmentChars ∧
    Impl.typescript.parseUnits (asciiUnits "spiffe://a.b/" ++ [0xD800]) = .error .segmentChars := by
  decide +kernel

end Spiffile
