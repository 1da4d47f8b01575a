import Spiffile.Bundle
import Spiffile.Jwt
import Spiffile.Lib.Scan

/-!
# Verifying a token

`Identity.verify` of `identity.py` and `identity.ts`, `Identity.Verify` of
`identity.go`. The clock is an argument, and so is what stands at the bundle's
path: a source re-reads it.
-/

namespace Spiffile

/-- A check that raises. -/
def ensure {ε : Type} (ok : Bool) (e : ε) : Except ε Unit := if ok then .ok () else .error e

@[simp] theorem ensure_true {ε : Type} (e : ε) : ensure true e = .ok () := rfl

@[simp] theorem ensure_false {ε : Type} (e : ε) : ensure false e = .error e := rfl

@[simp] theorem ok_bind {ε α β : Type} (a : α) (f : α → Except ε β) : (.ok a >>= f) = f a := rfl

@[simp] theorem error_bind {ε α β : Type} (e : ε) (f : α → Except ε β) :
    ((.error e : Except ε α) >>= f) = .error e := rfl

theorem bind_eq_ok {ε α β : Type} {x : Except ε α} {f : α → Except ε β} {b : β}
    (h : (x >>= f) = .ok b) : ∃ a, x = .ok a ∧ f a = .ok b := by
  cases x with
  | ok a => exact ⟨a, rfl, h⟩
  | error e => cases h

theorem bind_congr_ok {ε α β : Type} {x : Except ε α} {f g : α → Except ε β}
    (h : ∀ a, x = .ok a → f a = g a) : (x >>= f) = (x >>= g) := by
  cases x with
  | ok a => exact h a rfl
  | error e => rfl

theorem ensure_eq_ok {ε : Type} {ok : Bool} {e : ε} {u : Unit} (h : ensure ok e = .ok u) :
    ok = true := by
  cases ok with
  | true => rfl
  | false => cases h

namespace Py

/-- `except PyJWTError` around the two unverified decodings. -/
def orMalformed {α : Type} : Except LibExn α → Except Exn α
  | .ok a => .ok a
  | .error (.pyJwt e) => .error (.invalidToken (.malformed e.text))
  | .error e => .error (.lib e)

/-- `SpiffeId.parse` on a claim of any type. -/
def parseClaim : Json → Except Exn SpiffeId
  | .str s =>
    match parse s with
    | .ok id => .ok id
    | .error e => .error (.invalidSpiffeId e.fault (.str e.value))
  | v => .error (.invalidSpiffeId .missingScheme v)

/-- The claim is missing or `None`, or it is a string. -/
def absentOrString : Option Json → Bool
  | none => true
  | some .null => true
  | some (.str _) => true
  | _ => false

/-- The elements as dicts: no other value has `get`. -/
def asDicts : List Json → Option (List Members)
  | [] => some []
  | .obj ms :: jwks => (asDicts jwks).map (ms :: ·)
  | _ :: _ => none

/-- `[j for j in bound_jwks if j.get("kid") == kid] or bound_jwks`. -/
def candidates (boundJwks : List Json) (kid : Option Json) : Except Exn (List Members) :=
  match asDicts boundJwks with
  | none => .error .attributeError
  | some dicts =>
    let matched := dicts.filter fun j => Json.pyGetEq (Members.get? j "kid") kid
    .ok (if matched.isEmpty then dicts else matched)

def verifyOptions (expectedAudience : String) (leeway : ℚ) : DecodeOptions where
  algorithms := [algorithm]
  audience := expectedAudience
  leeway := leeway
  require := ["sub", "aud", "exp"]

/-- The body of the loop over the candidates: `continue` with an error, or the
end of the call. -/
def tryCandidate (lib : PyJwt) (token : String) (opts : DecodeOptions) (now : ℚ)
    (claimedId : SpiffeId) (jwk : Members) : Option String ⊕ Except Exn Caller :=
  match lib.fromDict jwk with
  | .error (.pyJwt ⟨.pyJwk, text⟩) => .inl (some text)
  | .error e => .inr (.error (.lib e))
  | .ok key =>
    match lib.decode token key opts now with
    | .error (.pyJwt ⟨.invalidSignature, text⟩) => .inl (some text)
    | .error (.pyJwt e) => .inr (.error (.invalidToken (.rejected e.text)))
    | .error e => .inr (.error (.lib e))
    | .ok claims => .inr (.ok ⟨claimedId, .obj claims⟩)

/-- The loop, with the last error it has seen. -/
def tryCandidates (lib : PyJwt) (token : String) (opts : DecodeOptions) (now : ℚ)
    (claimedId : SpiffeId) : Option String → List Members → Except Exn Caller :=
  Scan.scan (tryCandidate lib token opts now claimedId)
    fun lastError => .error (.invalidToken (.noMatch claimedId.toString lastError))

/-- The audience a verifier expects: its own SPIFFE ID by default. -/
def expectedAudience (self : SpiffeId) (audience : Option String) : String :=
  audience.getD self.toString

def verify (lib : PyJwt) (self : SpiffeId) (file : BundleFile) (now : ℚ) (token : String)
    (audience : Option String) (leeway : ℚ) : Except Exn Caller := do
  let header ← orMalformed (lib.getUnverifiedHeader token)
  let unverified ← orMalformed (lib.decodeUnverified token)
  let claimedSub := (Members.get? unverified "sub").getD .null
  ensure claimedSub.pyTruthy (.invalidToken .noSub)
  let claimedId ← parseClaim claimedSub
  ensure (absentOrString (Members.get? unverified "aud")) (.invalidToken .audNotString)
  let bundle ← readBundle file
  let boundJwks ← keysFor bundle claimedId.toString
  let candidates ← candidates boundJwks (Members.get? header "kid")
  tryCandidates lib token (verifyOptions (expectedAudience self audience) leeway) now claimedId
    none candidates

end Py

namespace Ts

def parsed (v : Option Json) : Except Exn Json :=
  match v with
  | some v => .ok v
  | none => .error (.invalidToken .malformed)

/-- Reading a property: of `null` it throws a `TypeError`. -/
def prop (v : Json) (name : String) : Except Exn (Option Json) :=
  match Json.jsProp? v name with
  | some p => .ok p
  | none => .error .typeError

/-- The allow-list; the message prints the refused value. -/
def checkAlgorithm (alg : Option Json) : Except Exn Unit :=
  if Json.jsStrictEq alg (some (.str algorithm)) then .ok ()
  else if (alg.map Json.jsPrints).getD true then .error (.invalidToken (.algorithm alg))
  else .error .typeError

def checkSub (sub : Option Json) : Except Exn String :=
  match sub with
  | some (.str s) => if s = "" then .error (.invalidToken .noSub) else .ok s
  | _ => .error (.invalidToken .noSub)

def parseSub (claimedSub : String) : Except Exn SpiffeId :=
  match parse claimedSub with
  | .ok id => .ok id
  | .error e => .error (.invalidSpiffeId e)

def checkExp (exp : Option Json) (leeway now : ℚ) : Except Exn Unit :=
  match exp.bind Json.num? with
  | none => .error (.invalidToken .noExp)
  | some exp => ensure (¬ exp + leeway < now) (.invalidToken .expired)

/-- An `iat` that is no number is not looked at. -/
def checkIat (iat : Option Json) (leeway now : ℚ) : Except Exn Unit :=
  match iat.bind Json.num? with
  | none => .ok ()
  | some iat => ensure (¬ iat - leeway > now) (.invalidToken .issuedInFuture)

/-- The keys of which `kid` is the header's, or all of them. -/
def candidates (boundJwks : List Json) (kid : Option Json) : Except Exn (List Json) :=
  if boundJwks.any fun jwk => (Json.jsProp? jwk "kid").isNone then .error .typeError
  else
    let matched := boundJwks.filter fun jwk => Json.jsStrictEq ((Json.jsProp? jwk "kid").getD none) kid
    .ok (if matched.isEmpty then boundJwks else matched)

/-- `createPublicKey` on the four members the code picks. -/
def loadKey (node : Node) (jwk : Json) : Option node.Key :=
  match Json.jsProp? jwk "kty", Json.jsProp? jwk "crv", Json.jsProp? jwk "x", Json.jsProp? jwk "y" with
  | some kty, some crv, some x, some y => node.createPublicKey kty crv x y
  | _, _, _, _ => none

/-- The body of the loop: only loading a key is inside the `try`. -/
def tryCandidate (node : Node) (input signatureText : String) (claimedId : SpiffeId)
    (claims jwk : Json) : Unit ⊕ Except Exn Caller :=
  match loadKey node jwk with
  | none => .inl ()
  | some key =>
    match node.cryptoVerify key input signatureText with
    | none => .inr (.error .cryptoError)
    | some true => .inr (.ok ⟨claimedId, claims⟩)
    | some false => .inl ()

def tryCandidates (node : Node) (input signatureText : String) (claimedId : SpiffeId)
    (claims : Json) : List Json → Except Exn Caller :=
  Scan.scan (tryCandidate node input signatureText claimedId claims)
    (fun _ => .error (.invalidToken (.noMatch claimedId.toString))) ()

def expectedAudience (self : SpiffeId) (audience : Option String) : String :=
  audience.getD self.toString

/-- `verify` from the decoded header and claims on. -/
def verifyParsed (node : Node) (self : SpiffeId) (file : BundleFile) (now : ℚ)
    (input signatureText : String) (header claims : Json) (audience : Option String) (leeway : ℚ) :
    Except Exn Caller := do
  checkAlgorithm (← prop header "alg")
  let claimedSub ← checkSub (← prop claims "sub")
  let claimedId ← parseSub claimedSub
  ensure (Json.jsStrictEq (← prop claims "aud") (some (.str (expectedAudience self audience))))
    (.invalidToken .audience)
  checkExp (← prop claims "exp") leeway now
  checkIat (← prop claims "iat") leeway now
  let bundle ← sourceGet file
  let boundJwks ← keysFor bundle claimedId.toString
  let candidates ← candidates boundJwks (← prop header "kid")
  tryCandidates node input signatureText claimedId claims candidates

def verify (node : Node) (self : SpiffeId) (file : BundleFile) (now : ℚ) (token : String)
    (audience : Option String) (leeway : ℚ) : Except Exn Caller :=
  match segments token with
  | [headerText, payloadText, signatureText] => do
    let header ← parsed (node.parseSegment headerText)
    let claims ← parsed (node.parseSegment payloadText)
    verifyParsed node self file now (signingInput headerText payloadText) signatureText header claims
      audience leeway
  | _ => .error (.invalidToken .segments)

end Ts

namespace Go

/-- `json.Unmarshal` into a `JWK`. -/
def decodeJwk : Json → Option JWK
  | .null => some ⟨"", "", "", "", "", "", ""⟩
  | .obj ms => do
    let kty ← decodeString (fieldValues "kty" ms)
    let crv ← decodeString (fieldValues "crv" ms)
    let x ← decodeString (fieldValues "x" ms)
    let y ← decodeString (fieldValues "y" ms)
    let kid ← decodeString (fieldValues "kid" ms)
    let use ← decodeString (fieldValues "use" ms)
    let alg ← decodeString (fieldValues "alg" ms)
    pure ⟨kty, crv, x, y, kid, use, alg⟩
  | _ => none

/-- `jwkToPublicKey`; the point is not checked against the curve here. -/
def jwkToPublicKey (jwk : JWK) : Option PublicKey :=
  if jwk.kty ≠ "EC" ∨ jwk.crv ≠ "P-256" then none
  else
    match Base64Url.decode jwk.x.toList, Base64Url.decode jwk.y.toList with
    | some x, some y => some ⟨Base64Url.beValue x, Base64Url.beValue y⟩
    | _, _ => none

/-- The kid and the key of an element that loads. -/
def loadKey (raw : Json) : Option (String × PublicKey) :=
  (decodeJwk raw).bind fun jwk => (jwkToPublicKey jwk).map fun key => (jwk.kid, key)

def candidateKeys (jwks : List Json) (kid : String) : List PublicKey :=
  let all := jwks.filterMap loadKey
  let matched := all.filter fun k => kid ≠ "" ∧ k.1 = kid
  (if matched.isEmpty then all else matched).map Prod.snd

theorem candidateKeys_eq (jwks : List Json) (kid : String) :
    candidateKeys jwks kid =
      (Scan.fallback (fun k => decide (kid ≠ "" ∧ k.1 = kid)) (jwks.filterMap loadKey)).map
        Prod.snd := rfl

theorem exists_candidateKey_iff (jwks : List Json) (kid : String) (good : PublicKey → Prop) :
    (∃ key ∈ candidateKeys jwks kid, good key) ↔
      (∃ k ∈ jwks.filterMap loadKey, good k.2) ∧
        Scan.Settled (fun k => good k.2)
          ((jwks.filterMap loadKey).filter fun k => decide (kid ≠ "" ∧ k.1 = kid)) := by
  rw [candidateKeys_eq]
  simp only [List.mem_map, exists_exists_and_eq_and]
  exact Scan.exists_mem_fallback_iff _ _ _

/-- `unverified.Header["kid"].(string)`. -/
def headerKid (header : Members) : String :=
  match Members.get? header "kid" with
  | some (.str kid) => kid
  | _ => ""

/-- The claim is missing, or it is a string. -/
def absentOrString : Option Json → Bool
  | none => true
  | some (.str _) => true
  | _ => false

def defaultLeeway : ℚ := 30

/-- The leeway `Verify` works with: zero stands for the default. -/
def effectiveLeeway (leeway : ℚ) : ℚ := if leeway ≤ 0 then defaultLeeway else leeway

def expectedAudience (self : SpiffeId) (audience : String) : String :=
  if audience = "" then self.toString else audience

def verifyOptions (expectedAudience : String) (leeway : ℚ) : ParserOptions where
  validMethods := [algorithm]
  audience := expectedAudience
  leeway := leeway
  expirationRequired := true

/-- The body of the loop: another key cannot mend a claim that failed. -/
def tryCandidate (lib : GoJwt) (token : String) (opts : ParserOptions) (now : ℚ)
    (claimedId : SpiffeId) (key : PublicKey) : String ⊕ Except Err Caller :=
  match lib.parseWithClaims token key opts now with
  | .ok claims => .inr (.ok ⟨claimedId, .obj claims⟩)
  | .error text =>
    if contains text "signature is invalid" then .inl text else .inr (.error (.rejected text))

/-- The loop, with the last error it has seen. -/
def tryCandidates (lib : GoJwt) (token : String) (opts : ParserOptions) (now : ℚ)
    (claimedId : SpiffeId) (claimedSub : String) : String → List PublicKey → Except Err Caller :=
  Scan.scan (tryCandidate lib token opts now claimedId)
    fun lastErr => .error (.noMatch claimedSub lastErr)

def claimedSubject (lib : GoJwt) (claims : Members) : Except Err String :=
  match lib.getSubject claims with
  | some sub => if sub = "" then .error .noSub else .ok sub
  | none => .error .noSub

def orElse {α β : Type} (r : Except α β) (e : α → Err) : Except Err β :=
  match r with
  | .ok b => .ok b
  | .error a => .error (e a)

def verify (lib : GoJwt) (self : SpiffeId) (file : BundleFile) (now : ℚ) (token : String)
    (audience : String) (leeway : ℚ) : Except Err Caller := do
  let unverified ← orElse (lib.parseUnverified token) .malformed
  let claimedSub ← claimedSubject lib unverified.2
  let claimedId ← orElse (parseSpiffeID claimedSub) .subNotId
  ensure (absentOrString (Members.get? unverified.2 "aud")) .audNotString
  let bundle ← readBundle file
  let boundJwks ← keysFor bundle claimedId.toString
  let candidates := candidateKeys boundJwks (headerKid unverified.1)
  ensure (!candidates.isEmpty) (.noUsableKeys claimedSub)
  tryCandidates lib token
    (verifyOptions (expectedAudience self audience) (effectiveLeeway leeway)) now claimedId
    claimedSub "" candidates

/-- Decoding what was written gives the struct back. -/
theorem decodeJwk_marshal (jwk : JWK) : decodeJwk jwk.marshal = some jwk := by
  have hnames : (["kty", "crv", "x", "y", "kid", "use", "alg"].map foldName).Nodup := by
    decide
  simp only [List.map_cons, List.map_nil, List.nodup_cons, List.mem_cons, not_or,
    List.not_mem_nil, or_false, not_false_eq_true, List.nodup_nil, and_true] at hnames
  obtain ⟨⟨h1, h2, h3, h4, h5, h6⟩, ⟨h7, h8, h9, h10, h11⟩, ⟨h12, h13, h14, h15⟩,
    ⟨h16, h17, h18⟩, ⟨h19, h20⟩, h21⟩ := hnames
  simp [decodeJwk, JWK.marshal, fieldValues, decodeString, h1, h2, h3, h4, h5, h6, h7,
    h8, h9, h10, h11, h12, h13, h14, h15, h16, h17, h18, h19, h20, h21, Ne.symm h1, Ne.symm h2,
    Ne.symm h3, Ne.symm h4, Ne.symm h5, Ne.symm h6, Ne.symm h7, Ne.symm h8, Ne.symm h9,
    Ne.symm h10, Ne.symm h11, Ne.symm h12, Ne.symm h13, Ne.symm h14, Ne.symm h15, Ne.symm h16,
    Ne.symm h17, Ne.symm h18, Ne.symm h19, Ne.symm h20, Ne.symm h21]

/-- Decoding a derived JWK gives its members. -/
theorem decodeJwk_jwk (sha256 : Hash) (p : Point) :
    decodeJwk (.obj (p.jwk sha256)) =
      some ⟨"EC", "P-256", coord p.x, coord p.y, p.kid sha256, jwtSvidUse, algorithm⟩ :=
  decodeJwk_marshal ⟨"EC", "P-256", coord p.x, coord p.y, p.kid sha256, jwtSvidUse, algorithm⟩

end Go

end Spiffile
