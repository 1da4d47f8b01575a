import Mathlib.Data.List.Basic
import Mathlib.Tactic.IntervalCases

/-!
# SPIFFE IDs

The parsers of `spiffe_id.py`, `spiffeId.ts` and `spiffeid.go`, and the grammar
they accept. The checks and their order are the same in the three files; what
differs is how the string is cut at its first slash and how a character class
is written, so the three parsers are one definition applied to three `IdRules`.
-/

namespace Spiffile

/-- Why a string is not a SPIFFE ID, in the order the checks are made. -/
inductive IdFault where
  | missingScheme
  | emptyTrustDomain
  | trustDomainChars
  | trailingSlash
  | emptySegment
  | relativeSegment (segment : String)
  | segmentChars
  deriving DecidableEq

/-- The wording the three implementations share; each appends the value. -/
def IdFault.text : IdFault → String
  | .missingScheme => "not a SPIFFE ID (missing 'spiffe://' scheme)"
  | .emptyTrustDomain => "empty trust domain"
  | .trustDomainChars =>
    "trust domain may only contain lowercase letters, digits, '.', '_' and '-'"
  | .trailingSlash => "trailing slash is not allowed"
  | .emptySegment => "empty path segment"
  | .relativeSegment segment => "relative path segment '" ++ segment ++ "' is not allowed"
  | .segmentChars => "path segments may only contain letters, digits, '.', '_' and '-'"

/-- `InvalidSpiffeIdError`. -/
structure InvalidSpiffeId where
  fault : IdFault
  value : String
  deriving DecidableEq

/-- The open record of the three implementations; `SpiffeName` is what a
parsed one looks like. -/
structure SpiffeId where
  trustDomain : String
  /-- Empty, or starts with a slash. -/
  path : String
  deriving DecidableEq

def scheme : String := "spiffe://"

/-- `__str__`, `toString` and `String`. -/
def SpiffeId.toString (id : SpiffeId) : String := scheme ++ id.trustDomain ++ id.path

/-- How one implementation cuts at the first slash and tests its two
character classes. -/
structure IdRules where
  cut : List Char → List Char × Option (List Char)
  trustDomain : List Char → Bool
  segment : List Char → Bool

/-- The loop over `path.split("/")`; the first fault ends it. -/
def checkSegments (ok : List Char → Bool) : List (List Char) → Option IdFault
  | [] => none
  | segment :: rest =>
    if segment = [] then some .emptySegment
    else if segment = ['.'] ∨ segment = ['.', '.'] then
      some (.relativeSegment (String.ofList segment))
    else if ok segment then checkSegments ok rest
    else some .segmentChars

def parseWith (r : IdRules) (value : String) : Except InvalidSpiffeId SpiffeId :=
  if ¬ scheme.toList.isPrefixOf value.toList then .error ⟨.missingScheme, value⟩
  else
    let parts := r.cut (value.toList.drop scheme.toList.length)
    if parts.1 = [] then .error ⟨.emptyTrustDomain, value⟩
    else if ¬ r.trustDomain parts.1 then .error ⟨.trustDomainChars, value⟩
    else
      match parts.2 with
      | none => .ok ⟨String.ofList parts.1, ""⟩
      | some path =>
        if path = [] then .error ⟨.trailingSlash, value⟩
        else
          match checkSegments r.segment (path.splitOn '/') with
          | some fault => .error ⟨fault, value⟩
          | none => .ok ⟨String.ofList parts.1, String.ofList ('/' :: path)⟩

/-! ### The three implementations -/

def asciiLowercase : List Char := "abcdefghijklmnopqrstuvwxyz".toList
def asciiUppercase : List Char := "ABCDEFGHIJKLMNOPQRSTUVWXYZ".toList
def digits : List Char := "0123456789".toList

namespace Py

/-- `_TRUST_DOMAIN_CHARS`. -/
def trustDomainChars : List Char := asciiLowercase ++ digits ++ ['.', '_', '-']

/-- `_PATH_SEGMENT_CHARS`. -/
def pathSegmentChars : List Char :=
  asciiLowercase ++ asciiUppercase ++ digits ++ ['.', '_', '-']

/-- `str.partition("/")`. -/
def partition : List Char → List Char × Option (List Char)
  | [] => ([], none)
  | c :: cs => if c = '/' then ([], some cs) else (c :: (partition cs).1, (partition cs).2)

def idRules : IdRules where
  cut := partition
  trustDomain cs := cs.all trustDomainChars.contains
  segment cs := cs.all pathSegmentChars.contains

/-- `SpiffeId.parse` of `spiffe_id.py` on a string. -/
def parse (value : String) : Except InvalidSpiffeId SpiffeId := parseWith idRules value

end Py

namespace Ts

/-- `indexOf("/")` and the two slices around it. -/
def cutSlash (rest : List Char) : List Char × Option (List Char) :=
  match rest.findIdx? (· == '/') with
  | none => (rest, none)
  | some slashIndex => (rest.take slashIndex, some (rest.drop (slashIndex + 1)))

def inRange (lo hi c : Char) : Bool := decide (lo ≤ c) && decide (c ≤ hi)

/-- `TRUST_DOMAIN_RE`, anchored at both ends. -/
def trustDomainRe (cs : List Char) : Bool :=
  !cs.isEmpty && cs.all fun c =>
    inRange 'a' 'z' c || inRange '0' '9' c || c == '.' || c == '_' || c == '-'

/-- `PATH_SEGMENT_RE`, anchored at both ends. -/
def pathSegmentRe (cs : List Char) : Bool :=
  !cs.isEmpty && cs.all fun c =>
    inRange 'a' 'z' c || inRange 'A' 'Z' c || inRange '0' '9' c ||
      c == '.' || c == '_' || c == '-'

def idRules : IdRules where
  cut := cutSlash
  trustDomain := trustDomainRe
  segment := pathSegmentRe

/-- `SpiffeId.parse` of `spiffeId.ts`. -/
def parse (value : String) : Except InvalidSpiffeId SpiffeId := parseWith idRules value

end Ts

namespace Go

/-- `strings.Cut(rest, "/")`. -/
def cut (rest : List Char) : List Char × Option (List Char) :=
  match rest.findIdx? (· == '/') with
  | some i => (rest.take i, some (rest.drop (i + 1)))
  | none => (rest, none)

def isTrustDomainChar (r : Char) : Bool :=
  (decide (r ≥ 'a') && decide (r ≤ 'z')) || (decide (r ≥ '0') && decide (r ≤ '9')) ||
    r == '.' || r == '_' || r == '-'

def isPathSegmentChar (r : Char) : Bool :=
  (decide (r ≥ 'a') && decide (r ≤ 'z')) || (decide (r ≥ 'A') && decide (r ≤ 'Z')) ||
    (decide (r ≥ '0') && decide (r ≤ '9')) || r == '.' || r == '_' || r == '-'

def idRules : IdRules where
  cut := cut
  trustDomain cs := cs.all isTrustDomainChar
  segment cs := cs.all isPathSegmentChar

/-- `ParseSpiffeID`. -/
def parseSpiffeID (value : String) : Except InvalidSpiffeId SpiffeId := parseWith idRules value

end Go

/-! ### The grammar -/

/-- A trust domain name: non-empty over `[a-z0-9._-]`. -/
def IsTrustDomain (cs : List Char) : Prop := cs ≠ [] ∧ ∀ c ∈ cs, Go.isTrustDomainChar c = true

/-- A path segment: non-empty over `[A-Za-z0-9._-]`, neither `.` nor `..`. -/
def IsSegment (cs : List Char) : Prop :=
  cs ≠ [] ∧ cs ≠ ['.'] ∧ cs ≠ ['.', '.'] ∧ ∀ c ∈ cs, Go.isPathSegmentChar c = true

/-- A SPIFFE ID that obeys the grammar, as its trust domain and its segments. -/
structure SpiffeName where
  domain : List Char
  segments : List (List Char)
  domain_ok : IsTrustDomain domain
  segments_ok : ∀ s ∈ segments, IsSegment s

namespace SpiffeName

def pathChars (n : SpiffeName) : List Char := n.segments.flatMap ('/' :: ·)

def render (n : SpiffeName) : String :=
  String.ofList (scheme.toList ++ n.domain ++ n.pathChars)

def toId (n : SpiffeName) : SpiffeId := ⟨String.ofList n.domain, String.ofList n.pathChars⟩

theorem toString_toId (n : SpiffeName) : n.toId.toString = n.render := by
  apply String.toList_inj.mp
  simp [toId, SpiffeId.toString, render, String.toList_append]

end SpiffeName

/-! ### The three parsers are one function -/

theorem char_ext_of_ascii (p q : Char → Bool)
    (hlow : ∀ n < 128, p (Char.ofNat n) = q (Char.ofNat n))
    (hp : ∀ c : Char, 128 ≤ c.toNat → p c = false) (hq : ∀ c : Char, 128 ≤ c.toNat → q c = false)
    (c : Char) : p c = q c := by
  by_cases hc : c.toNat < 128
  · have h := hlow c.toNat hc
    rwa [Char.ofNat_toNat] at h
  · rw [hp c (by omega), hq c (by omega)]

theorem not_contains_of_ascii (cs : List Char) (hcs : (cs.all fun d => d.toNat < 128) = true) (c : Char)
    (hc : 128 ≤ c.toNat) : cs.contains c = false := by
  rw [List.contains_eq_mem, decide_eq_false_iff_not]
  intro hm
  have := of_decide_eq_true (List.all_eq_true.mp hcs c hm)
  omega

theorem isPathSegmentChar_ascii (c : Char) (hc : 128 ≤ c.toNat) :
    Go.isPathSegmentChar c = false := by
  have hne : ∀ d : Char, d.toNat < 128 → c ≠ d := by
    rintro d hd rfl
    omega
  have hgt : ∀ d : Char, d.toNat < 128 → ¬ c ≤ d := by
    intro d hd hle
    have h : c.toNat ≤ d.toNat := UInt32.le_iff_toNat_le.mp hle
    omega
  simp [Go.isPathSegmentChar, hne '.' (by decide), hne '_' (by decide), hne '-' (by decide),
    hgt 'z' (by decide), hgt 'Z' (by decide), hgt '9' (by decide)]

theorem isTrustDomainChar_le (c : Char) (h : Go.isTrustDomainChar c = true) :
    Go.isPathSegmentChar c = true := by
  simp only [Go.isTrustDomainChar, Go.isPathSegmentChar, Bool.or_eq_true] at h ⊢
  tauto

theorem isTrustDomainChar_ascii (c : Char) (hc : 128 ≤ c.toNat) :
    Go.isTrustDomainChar c = false := by
  by_contra h
  have hs := isTrustDomainChar_le c (by simpa using h)
  rw [isPathSegmentChar_ascii c hc] at hs
  cases hs

theorem py_trustDomainChars (c : Char) :
    Py.trustDomainChars.contains c = Go.isTrustDomainChar c :=
  char_ext_of_ascii _ _ (by decide +kernel) (not_contains_of_ascii _ (by decide))
    isTrustDomainChar_ascii c

theorem py_pathSegmentChars (c : Char) :
    Py.pathSegmentChars.contains c = Go.isPathSegmentChar c :=
  char_ext_of_ascii _ _ (by decide +kernel) (not_contains_of_ascii _ (by decide))
    isPathSegmentChar_ascii c

theorem py_partition (cs : List Char) : Py.partition cs = Go.cut cs := by
  induction cs with
  | nil => rfl
  | cons c cs ih =>
    by_cases hc : c = '/'
    · subst hc
      rfl
    · simp only [Py.partition, hc, if_false, ih, Go.cut, List.findIdx?_cons]
      have hb : (c == '/') = false := by simpa using hc
      cases cs.findIdx? (· == '/') <;> simp [hb]

theorem checkSegments_congr (ok ok' : List Char → Bool) (h : ∀ cs ≠ [], ok cs = ok' cs)
    (segments : List (List Char)) : checkSegments ok segments = checkSegments ok' segments := by
  induction segments with
  | nil => rfl
  | cons segment rest ih =>
    simp only [checkSegments, ih]
    by_cases hs : segment = []
    · simp [hs]
    · rw [h segment hs]

/-- A parser tests its character classes only on what it found non-empty. -/
theorem parseWith_congr (r r' : IdRules) (hcut : ∀ cs, r.cut cs = r'.cut cs)
    (htd : ∀ cs ≠ [], r.trustDomain cs = r'.trustDomain cs)
    (hseg : ∀ cs ≠ [], r.segment cs = r'.segment cs) (value : String) :
    parseWith r value = parseWith r' value := by
  unfold parseWith
  simp only [hcut, checkSegments_congr _ _ hseg]
  by_cases hd : (r'.cut (value.toList.drop scheme.toList.length)).1 = []
  · simp [hd]
  · simp only [htd _ hd]

theorem py_parse_eq (value : String) : Py.parse value = Go.parseSpiffeID value :=
  parseWith_congr _ _ py_partition (fun cs _ => congrArg cs.all (funext py_trustDomainChars))
    (fun cs _ => congrArg cs.all (funext py_pathSegmentChars)) value

theorem ts_cutSlash (cs : List Char) : Ts.cutSlash cs = Go.cut cs := by
  unfold Ts.cutSlash Go.cut
  cases cs.findIdx? (· == '/') <;> rfl

theorem ts_trustDomainRe (cs : List Char) (h : cs ≠ []) :
    Ts.trustDomainRe cs = cs.all Go.isTrustDomainChar := by
  have hne : cs.isEmpty = false := by simpa using h
  simp only [Ts.trustDomainRe, hne, Bool.not_false, Bool.true_and]
  rfl

theorem ts_pathSegmentRe (cs : List Char) (h : cs ≠ []) :
    Ts.pathSegmentRe cs = cs.all Go.isPathSegmentChar := by
  have hne : cs.isEmpty = false := by simpa using h
  simp only [Ts.pathSegmentRe, hne, Bool.not_false, Bool.true_and]
  rfl

theorem ts_parse_eq (value : String) : Ts.parse value = Go.parseSpiffeID value :=
  parseWith_congr _ _ ts_cutSlash ts_trustDomainRe ts_pathSegmentRe value

/-! ### Parsing accepts exactly the grammar -/

theorem isTrustDomainChar_ne_slash (c : Char) (h : Go.isTrustDomainChar c = true) : c ≠ '/' := by
  rintro rfl
  simp [Go.isTrustDomainChar] at h

theorem isPathSegmentChar_ne_slash (c : Char) (h : Go.isPathSegmentChar c = true) : c ≠ '/' := by
  rintro rfl
  simp [Go.isPathSegmentChar] at h

theorem IsSegment.no_slash {cs : List Char} (h : IsSegment cs) : '/' ∉ cs :=
  fun hm => isPathSegmentChar_ne_slash '/' (h.2.2.2 '/' hm) rfl

theorem checkSegments_eq_none_iff (segments : List (List Char)) :
    checkSegments (fun cs => cs.all Go.isPathSegmentChar) segments = none ↔
      ∀ s ∈ segments, IsSegment s := by
  induction segments with
  | nil => simp [checkSegments]
  | cons s rest ih =>
    simp only [checkSegments, List.forall_mem_cons, IsSegment]
    split_ifs with h1 h2 h3
    · simp [h1]
    · rcases h2 with h2 | h2 <;> simp [h2]
    · rw [not_or] at h2
      rw [ih]
      simp only [List.all_eq_true] at h3
      exact ⟨fun h => ⟨⟨h1, h2.1, h2.2, h3⟩, h⟩, fun h => h.2⟩
    · simp only [List.all_eq_true] at h3
      exact ⟨fun h => absurd h (by simp), fun h => absurd h.1.2.2.2 h3⟩

/-- The cut loses nothing, and the part before it has no slash. -/
theorem cut_spec (cs : List Char) :
    '/' ∉ (Go.cut cs).1 ∧
      cs = (Go.cut cs).1 ++ (match (Go.cut cs).2 with
        | none => []
        | some path => '/' :: path) := by
  rw [← py_partition]
  induction cs with
  | nil => simp [Py.partition]
  | cons c cs ih =>
    by_cases hc : c = '/'
    · subst hc
      simp [Py.partition]
    · simp only [Py.partition, hc, if_false, List.mem_cons, not_or, List.cons_append]
      exact ⟨⟨fun h => hc h.symm, ih.1⟩, congrArg (c :: ·) ih.2⟩

theorem cut_of_no_slash (cs rest : List Char) (h : '/' ∉ cs) :
    Go.cut cs = (cs, none) ∧ Go.cut (cs ++ '/' :: rest) = (cs, some rest) := by
  rw [← py_partition, ← py_partition]
  induction cs with
  | nil => simp [Py.partition]
  | cons c cs ih =>
    rw [List.mem_cons, not_or] at h
    have hc : c ≠ '/' := fun he => h.1 he.symm
    obtain ⟨h1, h2⟩ := ih h.2
    simp [Py.partition, hc, h1, h2]

theorem flatMap_slash (segments : List (List Char)) (h : segments ≠ []) :
    segments.flatMap ('/' :: ·) = '/' :: ['/'].intercalate segments := by
  induction segments with
  | nil => exact absurd rfl h
  | cons s rest ih =>
    cases rest with
    | nil => simp
    | cons t rest =>
      rw [List.flatMap_cons, ih (by simp)]
      simp [List.intercalate, List.intersperse]

theorem parse_render (n : SpiffeName) : Go.parseSpiffeID n.render = .ok n.toId := by
  have hd : '/' ∉ n.domain :=
    fun hm => isTrustDomainChar_ne_slash '/' (n.domain_ok.2 '/' hm) rfl
  have hpre : scheme.toList.isPrefixOf n.render.toList = true := by
    simp [SpiffeName.render]
  have hrest : n.render.toList.drop scheme.toList.length = n.domain ++ n.pathChars := by
    simp [SpiffeName.render]
  have htd : Go.idRules.trustDomain n.domain = true := by
    simpa [Go.idRules] using n.domain_ok.2
  unfold Go.parseSpiffeID parseWith
  simp only [hpre, hrest, not_true, if_false]
  by_cases hs : n.segments = []
  · have hp : n.pathChars = [] := by simp [SpiffeName.pathChars, hs]
    have hcut : Go.idRules.cut (n.domain ++ n.pathChars) = (n.domain, none) := by
      rw [hp, List.append_nil]
      exact (cut_of_no_slash n.domain [] hd).1
    simp only [hcut, n.domain_ok.1, htd, not_true, if_false]
    simp only [SpiffeName.toId, hp, String.ofList_nil]
  · have hp : n.pathChars = '/' :: ['/'].intercalate n.segments := flatMap_slash _ hs
    have hcut : Go.idRules.cut (n.domain ++ n.pathChars) =
        (n.domain, some (['/'].intercalate n.segments)) := by
      rw [hp]
      exact (cut_of_no_slash n.domain _ hd).2
    have hsplit : (['/'].intercalate n.segments).splitOn '/' = n.segments :=
      List.splitOn_intercalate '/' (fun l hl => (n.segments_ok l hl).no_slash) hs
    have hcheck := (checkSegments_eq_none_iff n.segments).mpr n.segments_ok
    have hne : ['/'].intercalate n.segments ≠ [] := by
      intro he
      rw [he] at hsplit
      have hm : ([] : List Char) ∈ n.segments := by
        rw [← hsplit]
        exact List.mem_singleton.mpr rfl
      exact (n.segments_ok [] hm).1 rfl
    simp only [hcut, n.domain_ok.1, htd, not_true, if_false, hne, hsplit]
    simp only [Go.idRules, hcheck, SpiffeName.toId, hp]

theorem exists_name_of_parse (value : String) (id : SpiffeId)
    (h : Go.parseSpiffeID value = .ok id) : ∃ n : SpiffeName, value = n.render ∧ id = n.toId := by
  unfold Go.parseSpiffeID parseWith at h
  dsimp only at h
  split_ifs at h with hpre hempty htd
  have hscheme : scheme.toList <+: value.toList := List.isPrefixOf_iff_prefix.mp (by simpa using hpre)
  obtain ⟨rest, hrest⟩ := hscheme
  have hdrop : value.toList.drop scheme.toList.length = rest := by simp [← hrest]
  have hspec : rest = (Go.idRules.cut rest).1 ++ (match (Go.idRules.cut rest).2 with
      | none => []
      | some path => '/' :: path) := (cut_spec rest).2
  rw [hdrop] at h hempty htd
  rcases hc : Go.idRules.cut rest with ⟨domain, _ | path⟩
  · simp only [hc] at h hempty htd hspec
    cases h
    have hdom : IsTrustDomain domain := ⟨hempty, by simpa [Go.idRules] using htd⟩
    refine ⟨⟨domain, [], hdom, by simp⟩, ?_, rfl⟩
    apply String.toList_inj.mp
    simp [SpiffeName.render, SpiffeName.pathChars, ← hrest, hspec]
  · simp only [hc] at h hempty htd hspec
    have hdom : IsTrustDomain domain := ⟨hempty, by simpa [Go.idRules] using htd⟩
    split_ifs at h with hne
    cases hcheck : checkSegments Go.idRules.segment (path.splitOn '/') with
    | some fault => simp [hcheck] at h
    | none =>
      simp only [hcheck] at h
      cases h
      have hsegs := (checkSegments_eq_none_iff (path.splitOn '/')).mp hcheck
      have hflat : (path.splitOn '/').flatMap ('/' :: ·) = '/' :: path := by
        rw [flatMap_slash _ (List.splitOn_ne_nil '/' path), List.intercalate_splitOn]
      refine ⟨⟨domain, path.splitOn '/', hdom, hsegs⟩, ?_, ?_⟩
      · apply String.toList_inj.mp
        simp [SpiffeName.render, SpiffeName.pathChars, hflat, ← hrest, hspec]
      · simp [SpiffeName.toId, SpiffeName.pathChars, hflat]

/-- A parser accepts the strings of the grammar and no others. -/
theorem parse_ok_iff (value : String) (id : SpiffeId) :
    Go.parseSpiffeID value = .ok id ↔ ∃ n : SpiffeName, value = n.render ∧ id = n.toId := by
  refine ⟨exists_name_of_parse value id, ?_⟩
  rintro ⟨n, rfl, rfl⟩
  exact parse_render n

/-- Printing inverts parsing, so an accepted string is its own key. -/
theorem toString_of_parse {value : String} {id : SpiffeId}
    (h : Go.parseSpiffeID value = .ok id) : id.toString = value := by
  obtain ⟨n, rfl, rfl⟩ := exists_name_of_parse value id h
  exact n.toString_toId

end Spiffile
