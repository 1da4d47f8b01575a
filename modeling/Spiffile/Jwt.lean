import Mathlib.Data.List.Infix
import Spiffile.Errors
import Spiffile.Keys

/-!
# The JWT libraries

PyJWT with `cryptography`, golang-jwt, and the parts of Node that read and
write tokens. Their code is not part of the repository: each is a structure of
the functions that are called, and `Documented` lists what its documentation
says of them. Every library decodes a segment and checks a signature in its own
way, so both are fields. `reference` shows that the assumptions are consistent.
Times and durations are rational numbers of seconds.
-/

namespace Spiffile

/-- The texts between the dots of a compact serialization. -/
def segments (token : String) : List String := (token.toList.splitOn '.').map String.ofList

/-- The text a signature covers. -/
def signingInput (headerText payloadText : String) : String := headerText ++ "." ++ payloadText

/-- The time claims of a token: whole numbers of seconds, of which only `exp`
must be there. -/
structure TimeClaims (claims : Members) (exp : ℤ) (iat nbf : Option ℤ) : Prop where
  exp_eq : Members.get? claims "exp" = some (.int exp)
  iat_eq : Members.get? claims "iat" = iat.map .int
  nbf_eq : Members.get? claims "nbf" = nbf.map .int

/-- The verified peer. -/
structure Caller where
  id : SpiffeId
  claims : Json

namespace Py

structure DecodeOptions where
  algorithms : List String
  audience : String
  leeway : ℚ
  require : List String

structure PyJwt where
  Key : Type
  /-- Base64url, UTF-8 and JSON decoding of a segment. -/
  segment : String → Option Json
  getUnverifiedHeader : String → Except LibExn Members
  /-- `decode` with `verify_signature` off. -/
  decodeUnverified : String → Except LibExn Members
  /-- `PyJWK.from_dict(jwk).key`. -/
  fromDict : Members → Except LibExn Key
  /-- The key is an EC key object. -/
  isEc : Key → Bool
  /-- The ES256 check of a signature segment over a text. -/
  verifies : Key → String → String → Bool
  /-- The reading of a time claim. -/
  numericDate : Json → Option ℚ
  claimsValid : Members → DecodeOptions → ℚ → Bool
  /-- `decode`, at a given clock value. -/
  decode : String → Key → DecodeOptions → ℚ → Except LibExn Members
  /-- `encode` of claims under a private key, with an algorithm and extra
  header members. -/
  encode : Members → Point → String → Members → String

/-- The header and the claims of a token with three segments. -/
def PyJwt.Reads (lib : PyJwt) (token headerText payloadText signatureText : String)
    (header claims : Members) : Prop :=
  segments token = [headerText, payloadText, signatureText] ∧
    lib.segment headerText = some (.obj header) ∧ lib.segment payloadText = some (.obj claims)

structure PyJwt.Documented (lib : PyJwt) : Prop where
  header_ok : ∀ token header, lib.getUnverifiedHeader token = .ok header →
    ∃ h p s, segments token = [h, p, s] ∧ lib.segment h = some (.obj header)
  unverified_ok : ∀ token claims, lib.decodeUnverified token = .ok claims →
    ∃ h p s, segments token = [h, p, s] ∧ lib.segment p = some (.obj claims)
  header_error : ∀ token e, lib.getUnverifiedHeader token = .error e → ∃ err, e = .pyJwt err
  unverified_error : ∀ token e, lib.decodeUnverified token = .error e → ∃ err, e = .pyJwt err
  /-- A readable token has both; the header's `kid` must be a string. -/
  unverified_complete : ∀ token h p s header claims kid, lib.Reads token h p s header claims →
    Members.get? header "kid" = some (.str kid) →
    lib.getUnverifiedHeader token = .ok header ∧ lib.decodeUnverified token = .ok claims
  /-- Decoding checks the algorithm allow-list, the signature and the claims. -/
  decode_ok : ∀ token key opts now claims, lib.decode token key opts now = .ok claims →
    ∃ h p s header alg, lib.Reads token h p s header claims ∧
      Members.get? header "alg" = some (.str alg) ∧ alg ∈ opts.algorithms ∧
      lib.verifies key (signingInput h p) s = true ∧ lib.claimsValid claims opts now = true
  decode_complete : ∀ token key opts now h p s header claims alg,
    lib.Reads token h p s header claims → Members.get? header "alg" = some (.str alg) →
    alg ∈ opts.algorithms → lib.isEc key = true → lib.verifies key (signingInput h p) s = true →
    lib.claimsValid claims opts now = true → lib.decode token key opts now = .ok claims
  decode_badSignature : ∀ token key opts now h p s header claims alg,
    lib.Reads token h p s header claims → Members.get? header "alg" = some (.str alg) →
    alg ∈ opts.algorithms → lib.isEc key = true → lib.verifies key (signingInput h p) s = false →
    ∃ text, lib.decode token key opts now = .error (.pyJwt ⟨.invalidSignature, text⟩)
  /-- ES256 refuses a key of another type. -/
  decode_notEc : ∀ token key opts now h p s header claims alg,
    lib.Reads token h p s header claims → Members.get? header "alg" = some (.str alg) →
    alg ∈ opts.algorithms → lib.isEc key = false → lib.decode token key opts now = .error .typeError
  required : ∀ claims opts now, lib.claimsValid claims opts now = true →
    ∀ name ∈ opts.require, ∃ v, Members.get? claims name = some v
  /-- The audience is the expected one, or an array that holds it. -/
  audience : ∀ claims opts now, lib.claimsValid claims opts now = true →
    Members.get? claims "aud" = some (.str opts.audience) ∨
      ∃ xs, Members.get? claims "aud" = some (.arr xs)
  expiry : ∀ claims opts now v, lib.claimsValid claims opts now = true →
    Members.get? claims "exp" = some v → ∃ e, lib.numericDate v = some e ∧ now - opts.leeway < e
  /-- The four claims of the profile, with whole numbers of seconds. -/
  plain : ∀ claims opts now sub iat exp, claims.map Prod.fst ⊆ ["sub", "aud", "iat", "exp"] →
    Members.get? claims "sub" = some (.str sub) →
    Members.get? claims "aud" = some (.str opts.audience) → opts.audience ≠ "" →
    Members.get? claims "iat" = some (.int iat) → Members.get? claims "exp" = some (.int exp) →
    opts.require ⊆ ["sub", "aud", "exp"] → now - opts.leeway < (exp : ℚ) →
    (iat : ℚ) ≤ now + opts.leeway →
    lib.claimsValid claims opts now = true

/-- On claims that are in order otherwise, `exp`, `iat` and `nbf` decide. -/
def PyJwt.ChecksTimes (lib : PyJwt) : Prop :=
  ∀ claims opts now sub exp iat nbf, Members.get? claims "sub" = some (.str sub) →
    Members.get? claims "aud" = some (.str opts.audience) → opts.audience ≠ "" →
    opts.require ⊆ ["sub", "aud", "exp"] → TimeClaims claims exp iat nbf →
    (lib.claimsValid claims opts now = true ↔ now - opts.leeway < (exp : ℚ) ∧
      (∀ i ∈ iat, (i : ℚ) ≤ now + opts.leeway) ∧ ∀ n ∈ nbf, (n : ℚ) ≤ now + opts.leeway)

end Py

namespace Ts

/-- `node:crypto`, `Buffer` and `JSON`. -/
structure Node where
  Key : Type
  /-- `JSON.parse(Buffer.from(text, "base64url").toString("utf8"))`; `none`
  where it throws. -/
  parseSegment : String → Option Json
  /-- `createPublicKey` on the four members of a JWK; `none` where it throws. -/
  createPublicKey : Option Json → Option Json → Option Json → Option Json → Option Key
  /-- `cryptoVerify` over a text, of the bytes a signature segment decodes to;
  `none` where it throws. -/
  cryptoVerify : Key → String → String → Option Bool
  /-- `b64url(JSON.stringify(..))`. -/
  writeSegment : Members → String
  /-- `cryptoSign`, as base64url. -/
  sign : Point → String → String

end Ts

namespace Go

/-- An `*ecdsa.PublicKey` on the curve P-256. -/
structure PublicKey where
  x : ℕ
  y : ℕ
  deriving DecidableEq

structure ParserOptions where
  validMethods : List String
  audience : String
  leeway : ℚ
  expirationRequired : Bool

/-- `strings.Contains`. -/
def contains (s substr : String) : Bool := decide (substr.toList <:+: s.toList)

structure GoJwt where
  /-- Base64url and JSON decoding of a segment. -/
  segment : String → Option Json
  /-- `ParseUnverified` into `MapClaims`: the header and the claims. -/
  parseUnverified : String → Except String (Members × Members)
  getSubject : Members → Option String
  verifies : PublicKey → String → String → Bool
  numericDate : Json → Option ℚ
  claimsValid : Members → ParserOptions → ℚ → Bool
  /-- `ParseWithClaims` with a key function that returns one key, at a given
  clock value; an error is its text. -/
  parseWithClaims : String → PublicKey → ParserOptions → ℚ → Except String Members
  /-- `SignedString` of a token with the header and the claims. -/
  signedString : Members → Members → Point → String

/-- What decoding into a Go map leaves in it. -/
def mapMembers : Json → Option Members
  | .null => some []
  | .obj ms => some ms
  | _ => none

def GoJwt.Reads (lib : GoJwt) (token headerText payloadText signatureText : String)
    (header claims : Members) : Prop :=
  segments token = [headerText, payloadText, signatureText] ∧
    lib.segment headerText = some (.obj header) ∧
    (lib.segment payloadText).bind mapMembers = some claims

structure GoJwt.Documented (lib : GoJwt) : Prop where
  unverified_ok : ∀ token header claims, lib.parseUnverified token = .ok (header, claims) →
    ∃ h p s, lib.Reads token h p s header claims
  unverified_complete : ∀ token h p s header claims, lib.Reads token h p s header claims →
    Members.get? header "alg" = some (.str algorithm) →
    lib.parseUnverified token = .ok (header, claims)
  /-- The claim `sub`; a missing one is the empty string. -/
  subject : ∀ claims sub, sub ≠ "" →
    (lib.getSubject claims = some sub ↔ Members.get? claims "sub" = some (.str sub))
  parse_ok : ∀ token key opts now claims, lib.parseWithClaims token key opts now = .ok claims →
    ∃ h p s header alg, lib.Reads token h p s header claims ∧
      Members.get? header "alg" = some (.str alg) ∧ alg ∈ opts.validMethods ∧
      lib.verifies key (signingInput h p) s = true ∧ lib.claimsValid claims opts now = true
  parse_complete : ∀ token key opts now h p s header claims,
    lib.Reads token h p s header claims → Members.get? header "alg" = some (.str algorithm) →
    algorithm ∈ opts.validMethods → lib.verifies key (signingInput h p) s = true →
    lib.claimsValid claims opts now = true → lib.parseWithClaims token key opts now = .ok claims
  parse_badSignature : ∀ token key opts now h p s header claims,
    lib.Reads token h p s header claims → Members.get? header "alg" = some (.str algorithm) →
    algorithm ∈ opts.validMethods → lib.verifies key (signingInput h p) s = false →
    ∃ text, lib.parseWithClaims token key opts now = .error text ∧
      contains text "signature is invalid" = true
  audience : ∀ claims opts now, lib.claimsValid claims opts now = true →
    Members.get? claims "aud" = some (.str opts.audience) ∨
      ∃ xs, Members.get? claims "aud" = some (.arr xs)
  expiry : ∀ claims opts now, lib.claimsValid claims opts now = true →
    opts.expirationRequired = true →
    ∃ v e, Members.get? claims "exp" = some v ∧ lib.numericDate v = some e ∧ now < e + opts.leeway
  /-- The four claims of the profile, with whole numbers of seconds. -/
  plain : ∀ claims opts now sub iat exp, claims.map Prod.fst ⊆ ["sub", "aud", "iat", "exp"] →
    Members.get? claims "sub" = some (.str sub) →
    Members.get? claims "aud" = some (.str opts.audience) → opts.audience ≠ "" →
    Members.get? claims "iat" = some (.int iat) → Members.get? claims "exp" = some (.int exp) →
    now < (exp : ℚ) + opts.leeway → lib.claimsValid claims opts now = true

/-- On claims that are in order otherwise, `exp` and `nbf` decide: `iat` is
looked at only under an option that is not set. -/
def GoJwt.ChecksTimes (lib : GoJwt) : Prop :=
  ∀ claims opts now sub exp iat nbf, Members.get? claims "sub" = some (.str sub) →
    Members.get? claims "aud" = some (.str opts.audience) → opts.audience ≠ "" →
    TimeClaims claims exp iat nbf →
    (lib.claimsValid claims opts now = true ↔
      now < (exp : ℚ) + opts.leeway ∧ ∀ n ∈ nbf, (n : ℚ) - opts.leeway ≤ now)

end Go

/-! ### The assumptions are consistent -/

/-- The value of a whole-number time claim. -/
def intDate : Json → Option ℚ
  | .int n => some n
  | _ => none

/-- A claim that some audience may be: `aud` is the expected string. -/
def audIs (audience : String) : Option Json → Bool
  | some (.str aud) => aud == audience
  | _ => false

theorem audIs_eq_true (audience : String) (v : Option Json) (h : audIs audience v = true) :
    v = some (.str audience) := by
  unfold audIs at h
  split at h
  · rw [beq_iff_eq.mp h]
  · cases h

/-- The numeric date of a member passes a test. -/
def dateIs (test : ℚ → Bool) (v : Option Json) : Bool :=
  match v.bind intDate with
  | some e => test e
  | none => false

theorem dateIs_eq_true (test : ℚ → Bool) (v : Option Json) (h : dateIs test v = true) :
    ∃ w e, v = some w ∧ intDate w = some e ∧ test e = true := by
  unfold dateIs at h
  split at h
  · next e he =>
    obtain ⟨w, hw, hd⟩ := Option.bind_eq_some_iff.mp he
    exact ⟨w, e, hw, hd, h⟩
  · cases h

/-- The claim is missing, or its numeric date passes a test. -/
def absentOrDate (test : ℚ → Bool) (v : Option Json) : Bool := v.isNone || dateIs test v

theorem absentOrDate_int (test : ℚ → Bool) (n : Option ℤ) :
    absentOrDate test (n.map .int) = true ↔ ∀ i ∈ n, test i = true := by
  cases n <;> simp [absentOrDate, dateIs, intDate]

namespace Py

def referenceValid (claims : Members) (opts : DecodeOptions) (now : ℚ) : Bool :=
  opts.require.all (fun name => (Members.get? claims name).isSome) &&
    audIs opts.audience (Members.get? claims "aud") &&
    dateIs (fun e => now - opts.leeway < e) (Members.get? claims "exp") &&
    absentOrDate (fun i => i ≤ now + opts.leeway) (Members.get? claims "iat") &&
    absentOrDate (fun n => n ≤ now + opts.leeway) (Members.get? claims "nbf")

/-- Header and claims of a readable token. -/
def readToken (segment : String → Option Json) (token : String) :
    Option (String × String × String × Members × Members) :=
  match segments token with
  | [h, p, s] =>
    match segment h, segment p with
    | some (.obj header), some (.obj claims) => some (h, p, s, header, claims)
    | _, _ => none
  | _ => none

def decodeError : LibExn := .pyJwt ⟨.other, "Not enough segments"⟩

/-- The checks of `decode`, in their order. -/
def referenceDecode {Key : Type} (segment : String → Option Json) (isEc : Key → Bool)
    (verifies : Key → String → String → Bool) (token : String) (key : Key) (opts : DecodeOptions)
    (now : ℚ) : Except LibExn Members :=
  match readToken segment token with
  | none => .error decodeError
  | some (h, p, s, header, claims) =>
    match Members.get? header "alg" with
    | some (.str alg) =>
      if alg ∉ opts.algorithms then
        .error (.pyJwt ⟨.other, "The specified alg value is not allowed"⟩)
      else if isEc key = false then .error .typeError
      else if verifies key (signingInput h p) s = false then
        .error (.pyJwt ⟨.invalidSignature, "Signature verification failed"⟩)
      else if referenceValid claims opts now = false then
        .error (.pyJwt ⟨.other, "Signature has expired"⟩)
      else .ok claims
    | _ => .error (.pyJwt ⟨.other, "Algorithm not specified"⟩)

/-- PyJWT put together from its parts the way it documents itself. -/
def PyJwt.reference (Key : Type) (segment : String → Option Json)
    (fromDict : Members → Except LibExn Key) (isEc : Key → Bool)
    (verifies : Key → String → String → Bool)
    (encode : Members → Point → String → Members → String) : PyJwt where
  Key := Key
  segment := segment
  getUnverifiedHeader token :=
    match readToken segment token with
    | some (_, _, _, header, _) => .ok header
    | none => .error decodeError
  decodeUnverified token :=
    match readToken segment token with
    | some (_, _, _, _, claims) => .ok claims
    | none => .error decodeError
  fromDict := fromDict
  isEc := isEc
  verifies := verifies
  numericDate := intDate
  claimsValid := referenceValid
  decode := referenceDecode segment isEc verifies
  encode := encode

theorem readToken_eq_some (lib : PyJwt) (token h p s : String) (header claims : Members) :
    readToken lib.segment token = some (h, p, s, header, claims) ↔
      lib.Reads token h p s header claims := by
  unfold readToken PyJwt.Reads
  split
  · next h' p' s' hs =>
    split
    · next header' claims' hh hp =>
      rw [hs]
      simp only [Option.some.injEq, Prod.mk.injEq, List.cons.injEq, and_true]
      constructor
      · rintro ⟨rfl, rfl, rfl, rfl, rfl⟩
        exact ⟨⟨rfl, rfl, rfl⟩, hh, hp⟩
      · rintro ⟨⟨rfl, rfl, rfl⟩, hh', hp'⟩
        rw [hh] at hh'
        rw [hp] at hp'
        cases hh'
        cases hp'
        exact ⟨rfl, rfl, rfl, rfl, rfl⟩
    · next hne =>
      simp only [false_iff, not_and, reduceCtorEq]
      rintro hs' hh hp
      rw [hs] at hs'
      cases hs'
      exact hne header claims hh hp
  · next hne =>
    simp only [reduceCtorEq, false_iff, not_and]
    exact fun hs => absurd hs (hne h p s)

theorem all_required {require : List String} {claims : Members} {sub aud exp : Json}
    (hreq : require ⊆ ["sub", "aud", "exp"]) (hsub : Members.get? claims "sub" = some sub)
    (haud : Members.get? claims "aud" = some aud) (hexp : Members.get? claims "exp" = some exp) :
    require.all (fun name => (Members.get? claims name).isSome) = true := by
  rw [List.all_eq_true]
  intro name hname
  have hcase := hreq hname
  simp only [List.mem_cons, List.not_mem_nil, or_false] at hcase
  rcases hcase with rfl | rfl | rfl
  · simp [hsub]
  · simp [haud]
  · simp [hexp]

theorem PyJwt.reference_documented (Key : Type) (segment : String → Option Json)
    (fromDict : Members → Except LibExn Key) (isEc : Key → Bool)
    (verifies : Key → String → String → Bool)
    (encode : Members → Point → String → Members → String) :
    (PyJwt.reference Key segment fromDict isEc verifies encode).Documented := by
  set lib := PyJwt.reference Key segment fromDict isEc verifies encode with hlib
  have hread := readToken_eq_some lib
  have hsome : ∀ token, (∃ h p s header claims, lib.Reads token h p s header claims ∧
      readToken segment token = some (h, p, s, header, claims)) ∨
      readToken segment token = none := by
    intro token
    cases hr : readToken segment token with
    | none => exact Or.inr rfl
    | some r =>
      obtain ⟨h, p, s, header, claims⟩ := r
      exact Or.inl ⟨h, p, s, header, claims, (hread token h p s header claims).mp hr, rfl⟩
  constructor
  case header_ok =>
    intro token header hok
    rcases hsome token with ⟨h, p, s, header', claims, hr, he⟩ | he
    · simp only [hlib, PyJwt.reference, he, Except.ok.injEq] at hok
      exact ⟨h, p, s, hr.1, hok ▸ hr.2.1⟩
    · simp [hlib, PyJwt.reference, he] at hok
  case unverified_ok =>
    intro token claims hok
    rcases hsome token with ⟨h, p, s, header', claims', hr, he⟩ | he
    · simp only [hlib, PyJwt.reference, he, Except.ok.injEq] at hok
      exact ⟨h, p, s, hr.1, hok ▸ hr.2.2⟩
    · simp [hlib, PyJwt.reference, he] at hok
  case header_error =>
    intro token e herr
    rcases hsome token with ⟨h, p, s, header', claims', -, he⟩ | he
    · simp [hlib, PyJwt.reference, he] at herr
    · simp only [hlib, PyJwt.reference, he, Except.error.injEq] at herr
      exact ⟨_, herr.symm⟩
  case unverified_error =>
    intro token e herr
    rcases hsome token with ⟨h, p, s, header', claims', -, he⟩ | he
    · simp [hlib, PyJwt.reference, he] at herr
    · simp only [hlib, PyJwt.reference, he, Except.error.injEq] at herr
      exact ⟨_, herr.symm⟩
  case unverified_complete =>
    intro token h p s header claims kid hr _
    have he : readToken segment token = _ := (hread token h p s header claims).mpr hr
    simp [hlib, PyJwt.reference, he]
  case decode_ok =>
    intro token key opts now claims hok
    change referenceDecode segment isEc verifies token key opts now = _ at hok
    rcases hsome token with ⟨h, p, s, header, claims', hr, he⟩ | he
    · simp only [referenceDecode, he] at hok
      split at hok
      · next alg halg =>
        split_ifs at hok with h1 h2 h3 h4
        cases hok
        have hver : verifies key (signingInput h p) s = true := by simpa using h3
        have hval : referenceValid claims opts now = true := by simpa using h4
        exact ⟨h, p, s, header, alg, hr, halg, h1, hver, hval⟩
      · cases hok
    · simp [referenceDecode, he] at hok
  case decode_complete =>
    intro token key opts now h p s header claims alg hr halg hmem hec hver hval
    have he : readToken segment token = _ := (hread token h p s header claims).mpr hr
    have h2 : isEc key = true := hec
    have h3 : verifies key (signingInput h p) s = true := hver
    have h4 : referenceValid claims opts now = true := hval
    change referenceDecode segment isEc verifies token key opts now = _
    simp [referenceDecode, he, halg, hmem, h2, h3, h4]
  case decode_badSignature =>
    intro token key opts now h p s header claims alg hr halg hmem hec hver
    have he : readToken segment token = _ := (hread token h p s header claims).mpr hr
    have h2 : isEc key = true := hec
    have h3 : verifies key (signingInput h p) s = false := hver
    refine ⟨"Signature verification failed", ?_⟩
    change referenceDecode segment isEc verifies token key opts now = _
    simp [referenceDecode, he, halg, hmem, h2, h3]
  case decode_notEc =>
    intro token key opts now h p s header claims alg hr halg hmem hec
    have he : readToken segment token = _ := (hread token h p s header claims).mpr hr
    have h2 : isEc key = false := hec
    change referenceDecode segment isEc verifies token key opts now = _
    simp [referenceDecode, he, halg, hmem, h2]
  case required =>
    intro claims opts now hval name hname
    have hval' : referenceValid claims opts now = true := hval
    simp only [referenceValid, Bool.and_eq_true, List.all_eq_true] at hval'
    exact Option.isSome_iff_exists.mp (hval'.1.1.1.1 name hname)
  case audience =>
    intro claims opts now hval
    have hval' : referenceValid claims opts now = true := hval
    simp only [referenceValid, Bool.and_eq_true] at hval'
    exact Or.inl (audIs_eq_true _ _ hval'.1.1.1.2)
  case expiry =>
    intro claims opts now v hval hexp
    have hval' : referenceValid claims opts now = true := hval
    simp only [referenceValid, Bool.and_eq_true] at hval'
    obtain ⟨w, e, hw, hd, ht⟩ := dateIs_eq_true _ _ hval'.1.1.2
    rw [hexp] at hw
    cases hw
    exact ⟨e, hd, by simpa using ht⟩
  case plain =>
    intro claims opts now sub iat exp hnames hsub haud _ hiat hexp hreq hlow hhigh
    have hall := all_required hreq hsub haud hexp
    have hnbf : Members.get? claims "nbf" = none := by
      rw [Members.get?_eq_none_iff]
      exact fun hm => absurd (hnames hm) (by simp)
    change referenceValid claims opts now = true
    simp [referenceValid, hall, haud, hexp, hiat, hnbf, audIs, absentOrDate, dateIs, intDate, hlow,
      hhigh]

theorem PyJwt.reference_checksTimes (Key : Type) (segment : String → Option Json)
    (fromDict : Members → Except LibExn Key) (isEc : Key → Bool)
    (verifies : Key → String → String → Bool)
    (encode : Members → Point → String → Members → String) :
    (PyJwt.reference Key segment fromDict isEc verifies encode).ChecksTimes := by
  intro claims opts now sub exp iat nbf hsub haud _ hreq htimes
  have hall := all_required hreq hsub haud htimes.exp_eq
  change referenceValid claims opts now = true ↔ _
  simp only [referenceValid, hall, haud, htimes.exp_eq, htimes.iat_eq, htimes.nbf_eq, audIs, dateIs,
    intDate, Bool.and_eq_true, absentOrDate_int, beq_self_eq_true, Option.bind_some,
    decide_eq_true_eq, true_and, and_assoc]

end Py

namespace Go

def referenceValid (claims : Members) (opts : ParserOptions) (now : ℚ) : Bool :=
  audIs opts.audience (Members.get? claims "aud") &&
    dateIs (fun e => now < e + opts.leeway) (Members.get? claims "exp") &&
    absentOrDate (fun n => n - opts.leeway ≤ now) (Members.get? claims "nbf")

/-- Header and claims of a readable token. -/
def readToken (segment : String → Option Json) (token : String) :
    Option (String × String × String × Members × Members) :=
  match segments token with
  | [h, p, s] =>
    match segment h, (segment p).bind mapMembers with
    | some (.obj header), some claims => some (h, p, s, header, claims)
    | _, _ => none
  | _ => none

/-- The checks of `ParseWithClaims`, in their order. -/
def referenceParse (segment : String → Option Json) (verifies : PublicKey → String → String → Bool)
    (token : String) (key : PublicKey) (opts : ParserOptions) (now : ℚ) : Except String Members :=
  match readToken segment token with
  | none => .error "token is malformed"
  | some (h, p, s, header, claims) =>
    match Members.get? header "alg" with
    | some (.str alg) =>
      if alg ∉ opts.validMethods then .error "token signature is invalid: signing method is invalid"
      else if verifies key (signingInput h p) s = false then
        .error "token signature is invalid: crypto/ecdsa: verification error"
      else if referenceValid claims opts now = false then .error "token has invalid claims"
      else .ok claims
    | _ => .error "token is unverifiable"

/-- golang-jwt put together from its parts the way it documents itself. -/
def GoJwt.reference (segment : String → Option Json)
    (verifies : PublicKey → String → String → Bool)
    (signedString : Members → Members → Point → String) : GoJwt where
  segment := segment
  parseUnverified token :=
    match readToken segment token with
    | some (_, _, _, header, claims) => .ok (header, claims)
    | none => .error "token is malformed"
  getSubject claims :=
    match Members.get? claims "sub" with
    | some (.str sub) => some sub
    | some _ => none
    | none => some ""
  verifies := verifies
  numericDate := intDate
  claimsValid := referenceValid
  parseWithClaims := referenceParse segment verifies
  signedString := signedString

theorem readToken_eq_some (lib : GoJwt) (token h p s : String) (header claims : Members) :
    readToken lib.segment token = some (h, p, s, header, claims) ↔
      lib.Reads token h p s header claims := by
  unfold readToken GoJwt.Reads
  split
  · next h' p' s' hs =>
    split
    · next header' claims' hh hp =>
      rw [hs]
      simp only [Option.some.injEq, Prod.mk.injEq, List.cons.injEq, and_true]
      constructor
      · rintro ⟨rfl, rfl, rfl, rfl, rfl⟩
        exact ⟨⟨rfl, rfl, rfl⟩, hh, hp⟩
      · rintro ⟨⟨rfl, rfl, rfl⟩, hh', hp'⟩
        rw [hh] at hh'
        rw [hp] at hp'
        cases hh'
        cases hp'
        exact ⟨rfl, rfl, rfl, rfl, rfl⟩
    · next hne =>
      simp only [false_iff, not_and, reduceCtorEq]
      rintro hs' hh hp
      rw [hs] at hs'
      cases hs'
      exact hne header claims hh hp
  · next hne =>
    simp only [reduceCtorEq, false_iff, not_and]
    exact fun hs => absurd hs (hne h p s)

theorem GoJwt.reference_documented (segment : String → Option Json)
    (verifies : PublicKey → String → String → Bool)
    (signedString : Members → Members → Point → String) :
    (GoJwt.reference segment verifies signedString).Documented := by
  set lib := GoJwt.reference segment verifies signedString with hlib
  have hread := readToken_eq_some lib
  constructor
  case unverified_ok =>
    intro token header claims hok
    cases hr : readToken segment token with
    | none => simp [hlib, GoJwt.reference, hr] at hok
    | some r =>
      obtain ⟨h, p, s, header', claims'⟩ := r
      simp only [hlib, GoJwt.reference, hr, Except.ok.injEq, Prod.mk.injEq] at hok
      obtain ⟨rfl, rfl⟩ := hok
      exact ⟨h, p, s, (hread token h p s header' claims').mp hr⟩
  case unverified_complete =>
    intro token h p s header claims hr _
    have he : readToken segment token = _ := (hread token h p s header claims).mpr hr
    simp [hlib, GoJwt.reference, he]
  case subject =>
    intro claims sub hne
    simp only [hlib, GoJwt.reference]
    split
    · next sub' h => simp [h]
    · next v hv h =>
      simp only [reduceCtorEq, false_iff, h, Option.some.injEq]
      exact fun he => hv sub he
    · next h => simp [h, hne.symm]
  case parse_ok =>
    intro token key opts now claims hok
    change referenceParse segment verifies token key opts now = _ at hok
    cases hr : readToken segment token with
    | none => simp [referenceParse, hr] at hok
    | some r =>
      obtain ⟨h, p, s, header, claims'⟩ := r
      simp only [referenceParse, hr] at hok
      split at hok
      · next alg halg =>
        split_ifs at hok with h1 h2 h3
        cases hok
        have hver : verifies key (signingInput h p) s = true := by simpa using h2
        have hval : referenceValid claims opts now = true := by simpa using h3
        exact ⟨h, p, s, header, alg, (hread token h p s header claims).mp hr, halg, h1, hver, hval⟩
      · cases hok
  case parse_complete =>
    intro token key opts now h p s header claims hr halg hmem hver hval
    have he : readToken segment token = _ := (hread token h p s header claims).mpr hr
    have h3 : verifies key (signingInput h p) s = true := hver
    have h4 : referenceValid claims opts now = true := hval
    change referenceParse segment verifies token key opts now = _
    simp [referenceParse, he, halg, hmem, h3, h4]
  case parse_badSignature =>
    intro token key opts now h p s header claims hr halg hmem hver
    have he : readToken segment token = _ := (hread token h p s header claims).mpr hr
    have h3 : verifies key (signingInput h p) s = false := hver
    refine ⟨"token signature is invalid: crypto/ecdsa: verification error", ?_, rfl⟩
    change referenceParse segment verifies token key opts now = _
    simp [referenceParse, he, halg, hmem, h3]
  case audience =>
    intro claims opts now hval
    have hval' : referenceValid claims opts now = true := hval
    simp only [referenceValid, Bool.and_eq_true] at hval'
    exact Or.inl (audIs_eq_true _ _ hval'.1.1)
  case expiry =>
    intro claims opts now hval _
    have hval' : referenceValid claims opts now = true := hval
    simp only [referenceValid, Bool.and_eq_true] at hval'
    obtain ⟨w, e, hw, hd, ht⟩ := dateIs_eq_true _ _ hval'.1.2
    exact ⟨w, e, hw, hd, by simpa using ht⟩
  case plain =>
    intro claims opts now sub iat exp hnames _ haud _ _ hexp hnow
    have hnbf : Members.get? claims "nbf" = none := by
      rw [Members.get?_eq_none_iff]
      exact fun hm => absurd (hnames hm) (by simp)
    change referenceValid claims opts now = true
    simp [referenceValid, haud, hexp, hnbf, audIs, absentOrDate, dateIs, intDate, hnow]

theorem GoJwt.reference_checksTimes (segment : String → Option Json)
    (verifies : PublicKey → String → String → Bool)
    (signedString : Members → Members → Point → String) :
    (GoJwt.reference segment verifies signedString).ChecksTimes := by
  intro claims opts now sub exp iat nbf _ haud _ htimes
  change referenceValid claims opts now = true ↔ _
  simp only [referenceValid, haud, htimes.exp_eq, htimes.nbf_eq, audIs, dateIs, intDate,
    Bool.and_eq_true, absentOrDate_int, beq_self_eq_true, Option.bind_some, decide_eq_true_eq,
    true_and]

end Go

end Spiffile
