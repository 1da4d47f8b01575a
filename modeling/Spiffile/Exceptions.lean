import Spiffile.Candidates

/-!
# What leaves `verify`

Callers are told to expect `UnknownIdentityError` and `InvalidTokenError`. Which
tokens and bundles make another exception leave the Python and the TypeScript
verifier, once the bundle itself has loaded.
-/

namespace Spiffile

namespace Py

/-- The call returns, or raises one of the two announced errors. -/
def Announced : Except Exn Caller → Prop
  | .ok _ => True
  | .error (.unknownIdentity _) => True
  | .error (.invalidToken _) => True
  | .error _ => False

instance : DecidablePred Announced
  | .ok _ => isTrue trivial
  | .error (.unknownIdentity _) => isTrue trivial
  | .error (.invalidToken _) => isTrue trivial
  | .error (.spiffile _) => isFalse id
  | .error (.invalidSpiffeId _ _) => isFalse id
  | .error (.invalidBundle _) => isFalse id
  | .error (.lib _) => isFalse id
  | .error .attributeError => isFalse id
  | .error .osError => isFalse id

/-- Loading the object raises something else than `PyJWKError`, or decoding
with its key something else than a `PyJWTError`. -/
def LetsThrough (lib : PyJwt) (token : String) (opts : DecodeOptions) (now : ℚ) (ms : Members) :
    Prop :=
  (∃ e, lib.fromDict ms = .error e ∧ ∀ text, e ≠ .pyJwt ⟨.pyJwk, text⟩) ∨
    ∃ key e, lib.fromDict ms = .ok key ∧ lib.decode token key opts now = .error e ∧
      ∀ err, e ≠ .pyJwt err

/-- The loop passes over objects until one lets an exception through. -/
def LoopEscapes (lib : PyJwt) (token : String) (opts : DecodeOptions) (now : ℚ) (id : SpiffeId)
    (cs : List Members) : Prop :=
  ∃ pre ms post, cs = pre ++ ms :: post ∧
    (∀ m ∈ pre, Scan.Continues (tryCandidate lib token opts now id) m) ∧
    LetsThrough lib token opts now ms

/-- A decoded token whose `sub` is set names a SPIFFE ID; where the bundle
binds it, every bound value is an object and none lets an exception through. -/
def Harmless (lib : PyJwt) (b : Bundle Json) (own : SpiffeId) (now : ℚ) (token : String)
    (audience : Option String) (leeway : ℚ) : Prop :=
  ∀ header claims, lib.getUnverifiedHeader token = .ok header →
    lib.decodeUnverified token = .ok claims →
    ((Members.get? claims "sub").getD .null).pyTruthy = true →
    ∃ id, Members.get? claims "sub" = some (.str id.toString) ∧ parse id.toString = .ok id ∧
      (absentOrString (Members.get? claims "aud") = true →
        ∀ jwks, b.identities.lookup id.toString = some jwks →
          (∀ jwk ∈ jwks, ∃ ms, jwk = .obj ms) ∧
          ∀ cs, candidates jwks (Members.get? header "kid") = .ok cs →
            ¬ LoopEscapes lib token (verifyOptions (expectedAudience own audience) leeway) now id cs)

theorem announced_body_iff (lib : PyJwt) (token : String) (opts : DecodeOptions) (now : ℚ)
    (id : SpiffeId) (ms : Members) :
    (∀ result, tryCandidate lib token opts now id ms = .inr result → Announced result) ↔
      ¬ LetsThrough lib token opts now ms := by
  unfold LetsThrough
  constructor
  · rintro hall (⟨e, hf, hne⟩ | ⟨key, e, hf, hd, hne⟩)
    · have hbody : tryCandidate lib token opts now id ms = .inr (.error (.lib e)) := by
        simp only [tryCandidate, hf]
      exact hall _ hbody
    · have hbody : tryCandidate lib token opts now id ms = .inr (.error (.lib e)) := by
        have hnotSig : ∀ text, e ≠ .pyJwt ⟨.invalidSignature, text⟩ := fun text => hne _
        simp only [tryCandidate, hf, hd]
      exact hall _ hbody
  · intro hno result hbody
    unfold tryCandidate at hbody
    split at hbody
    · cases hbody
    · next e hne hf => exact absurd (Or.inl ⟨e, hf, hne⟩) hno
    · next key hf =>
      split at hbody
      · cases hbody
      · cases hbody
        trivial
      · next e hne hne' hd => exact absurd (Or.inr ⟨key, e, hf, hd, hne'⟩) hno
      · cases hbody
        trivial

/-- The loop itself ends with an announced error when nothing verifies. -/
theorem announced_tryCandidates_iff (lib : PyJwt) (token : String) (opts : DecodeOptions) (now : ℚ)
    (id : SpiffeId) (cs : List Members) :
    Announced (tryCandidates lib token opts now id none cs) ↔
      ¬ LoopEscapes lib token opts now id cs := by
  have hend : ∀ lastError : Option String,
      Announced (.error (.invalidToken (.noMatch id.toString lastError))) := fun _ => trivial
  unfold tryCandidates
  rw [Scan.scan_good_iff _ _ Announced none cs (Or.inl hend)]
  constructor
  · rintro hall ⟨pre, ms, post, hcs, hpre, hlets⟩
    exact (announced_body_iff lib token opts now id ms).mp
      (fun result hresult => hall pre ms post result hcs hpre hresult) hlets
  · intro hno pre ms post result hcs hpre hresult
    refine (announced_body_iff lib token opts now id ms).mpr (fun hlets => ?_) result hresult
    exact hno ⟨pre, ms, post, hcs, hpre, hlets⟩

theorem announced_ensure_bind {ok : Bool} {fault : TokenFault} {k : Unit → Except Exn Caller} :
    Announced (ensure ok (.invalidToken fault) >>= k) ↔ (ok = true → Announced (k ())) := by
  cases ok with
  | true => simp
  | false => simp [Announced]

theorem announced_orMalformed_bind {α : Type} {r : Except LibExn α} {k : α → Except Exn Caller}
    (hpy : ∀ e, r = .error e → ∃ err, e = .pyJwt err) :
    Announced (orMalformed r >>= k) ↔ ∀ a, r = .ok a → Announced (k a) := by
  cases r with
  | ok a => simp [orMalformed]
  | error e =>
    obtain ⟨err, rfl⟩ := hpy e rfl
    simp [orMalformed, Announced]

theorem announced_keysFor_bind {b : Bundle Json} {s : String} {k : List Json → Except Exn Caller} :
    Announced (keysFor b s >>= k) ↔ ∀ jwks, b.identities.lookup s = some jwks → Announced (k jwks) := by
  unfold keysFor
  cases b.identities.lookup s with
  | none => simp [Announced]
  | some jwks => simp

theorem announced_parseClaim_bind {sub : Json} {k : SpiffeId → Except Exn Caller} :
    Announced (parseClaim sub >>= k) ↔
      ∃ id, sub = .str id.toString ∧ parse id.toString = .ok id ∧ Announced (k id) := by
  cases hp : parseClaim sub with
  | ok id =>
    obtain ⟨s, rfl, hparse⟩ := parseClaim_eq_ok hp
    obtain rfl : id.toString = s := toString_of_parse hparse
    rw [ok_bind]
    constructor
    · exact fun h => ⟨id, rfl, (py_parse_eq _).trans hparse, h⟩
    · rintro ⟨id', hs, hid', h⟩
      rw [py_parse_eq, ← Json.str.inj hs, hparse] at hid'
      cases hid'
      exact h
  | error e =>
    have hno : ¬ Announced (.error e) := by
      unfold parseClaim at hp
      split at hp
      · split at hp
        · cases hp
        · cases hp
          exact id
      · cases hp
        exact id
    rw [error_bind]
    refine iff_of_false hno ?_
    rintro ⟨id, rfl, hid, -⟩
    simp [parseClaim, hid] at hp

theorem announced_candidates_bind {jwks : List Json} {kid : Option Json}
    {k : List Members → Except Exn Caller} :
    Announced (candidates jwks kid >>= k) ↔
      (∀ jwk ∈ jwks, ∃ ms, jwk = .obj ms) ∧
        ∀ cs, candidates jwks kid = .ok cs → Announced (k cs) := by
  rw [← candidates_isOk_iff jwks kid]
  cases hc : candidates jwks kid with
  | ok cs => simp
  | error e =>
    have hno : ¬ Announced (.error e) := by
      unfold candidates at hc
      split at hc <;> cases hc
      exact id
    rw [error_bind]
    exact iff_of_false hno (by simp)

theorem getD_eq_str (v : Option Json) (s : String) : v.getD .null = .str s ↔ v = some (.str s) := by
  cases v <;> simp

/-- With a bundle that has loaded, another exception leaves the call exactly
when the token is not harmless. -/
theorem announced_iff (lib : PyJwt) (hlib : lib.Documented) (own : SpiffeId) (file : BundleFile)
    (b : Bundle Json) (hb : readBundle file = .ok b) (now : ℚ) (token : String)
    (audience : Option String) (leeway : ℚ) :
    Announced (verify lib own file now token audience leeway) ↔
      Harmless lib b own now token audience leeway := by
  unfold verify Harmless
  simp only [announced_orMalformed_bind (hlib.header_error token),
    announced_orMalformed_bind (hlib.unverified_error token), announced_ensure_bind,
    announced_parseClaim_bind, hb, ok_bind, announced_keysFor_bind, announced_candidates_bind,
    announced_tryCandidates_iff, getD_eq_str]
  exact ⟨fun h header claims hheader => h header hheader claims,
    fun h header hheader claims => h header claims hheader⟩

end Py

namespace Ts

/-- The call returns, or raises one of the two announced errors. -/
def Announced : Except Exn Caller → Prop
  | .ok _ => True
  | .error (.unknownIdentity _) => True
  | .error (.invalidToken _) => True
  | .error _ => False

instance : DecidablePred Announced
  | .ok _ => isTrue trivial
  | .error (.unknownIdentity _) => isTrue trivial
  | .error (.invalidToken _) => isTrue trivial
  | .error (.spiffile _) => isFalse id
  | .error (.invalidSpiffeId _) => isFalse id
  | .error (.invalidBundle _) => isFalse id
  | .error .typeError => isFalse id
  | .error .syntaxError => isFalse id
  | .error .systemError => isFalse id
  | .error .cryptoError => isFalse id

/-- The loop passes over values until `cryptoVerify` throws for one. -/
def LoopEscapes (node : Node) (input signatureText : String) (jwks : List Json) : Prop :=
  ∃ pre jwk post, jwks = pre ++ jwk :: post ∧
    (∀ j ∈ pre, ¬ VerifiesUnder node j input signatureText ∧ ¬ Throws node input signatureText j) ∧
    Throws node input signatureText jwk

/-- The header and the claims of a decoded token: the header is not `null` and
its `alg` can be printed; after that the claims are not `null`, a `sub` names a
SPIFFE ID, and where the remaining claims pass and the bundle binds it, no
bound value is `null` and no candidate makes `cryptoVerify` throw. -/
def HarmlessParsed (node : Node) (b : Bundle String) (own : SpiffeId) (now : ℚ)
    (input signatureText : String) (header claims : Json) (audience : Option String) (leeway : ℚ) :
    Prop :=
  ∃ alg, Json.jsProp? header "alg" = some alg ∧
    (alg ≠ some (.str algorithm) → (alg.map Json.jsPrints).getD true = true) ∧
    (alg = some (.str algorithm) →
      claims ≠ .null ∧
      ∀ sub, sub ≠ "" → Json.jsProp? claims "sub" = some (some (.str sub)) →
        ∃ id, parse sub = .ok id ∧
          (Json.jsProp? claims "aud" = some (some (.str (expectedAudience own audience))) →
            checkExp ((Json.jsProp? claims "exp").getD none) leeway now = .ok () →
            checkIat ((Json.jsProp? claims "iat").getD none) leeway now = .ok () →
            ∀ jwks, b.identities.lookup sub = some jwks →
              (∀ jwk ∈ jwks, jwk ≠ .null) ∧
              ∀ cs, candidates jwks ((Json.jsProp? header "kid").getD none) = .ok cs →
                ¬ LoopEscapes node input signatureText cs))

def Harmless (node : Node) (b : Bundle String) (own : SpiffeId) (now : ℚ) (token : String)
    (audience : Option String) (leeway : ℚ) : Prop :=
  ∀ h p s header claims, segments token = [h, p, s] → node.parseSegment h = some header →
    node.parseSegment p = some claims →
    HarmlessParsed node b own now (signingInput h p) s header claims audience leeway

theorem announced_parsed_bind {v : Option Json} {k : Json → Except Exn Caller} :
    Announced (parsed v >>= k) ↔ ∀ w, v = some w → Announced (k w) := by
  cases v <;> simp [parsed, Announced]

theorem announced_prop_bind {v : Json} {name : String} {k : Option Json → Except Exn Caller} :
    Announced (prop v name >>= k) ↔ ∃ p, Json.jsProp? v name = some p ∧ Announced (k p) := by
  unfold prop
  cases Json.jsProp? v name <;> simp [Announced]

theorem announced_checkAlgorithm_bind {alg : Option Json} {k : Unit → Except Exn Caller} :
    Announced (checkAlgorithm alg >>= k) ↔
      (alg ≠ some (.str algorithm) → (alg.map Json.jsPrints).getD true = true) ∧
      (alg = some (.str algorithm) → Announced (k ())) := by
  have hrefl : Json.jsStrictEq (some (.str algorithm)) (some (.str algorithm)) = true := by
    simp [Json.jsStrictEq]
  unfold checkAlgorithm
  by_cases he : alg = some (.str algorithm)
  · subst he
    simp [hrefl]
  · have hne : ¬ Json.jsStrictEq alg (some (.str algorithm)) = true := fun h => he ((Json.jsStrictEq_str _ _).mp h)
    rw [if_neg hne]
    split_ifs with hp
    · simp [Announced, he, hp]
    · simp [Announced, he, hp]

theorem announced_checkSub_bind {sub : Option Json} {k : String → Except Exn Caller} :
    Announced (checkSub sub >>= k) ↔ ∀ s, s ≠ "" → sub = some (.str s) → Announced (k s) := by
  unfold checkSub
  split
  · next s =>
    split_ifs with hs
    · subst hs
      refine iff_of_true trivial fun t ht he => ?_
      cases he
      exact absurd rfl ht
    · refine ⟨fun h t _ he => ?_, fun h => h s hs rfl⟩
      cases he
      exact h
  · next hne =>
    simp only [error_bind, Announced, true_iff]
    intro s _ he
    exact absurd he (hne s)

theorem announced_parseSub_bind {s : String} {k : SpiffeId → Except Exn Caller} :
    Announced (parseSub s >>= k) ↔ ∃ id, parse s = .ok id ∧ Announced (k id) := by
  unfold parseSub
  cases parse s <;> simp [Announced]

theorem announced_ensure_bind {ok : Bool} {fault : TokenFault} {k : Unit → Except Exn Caller} :
    Announced (ensure ok (.invalidToken fault) >>= k) ↔ (ok = true → Announced (k ())) := by
  cases ok with
  | true => simp
  | false => simp [Announced]

theorem announced_checkExp_bind {exp : Option Json} {leeway now : ℚ}
    {k : Unit → Except Exn Caller} :
    Announced (checkExp exp leeway now >>= k) ↔
      (checkExp exp leeway now = .ok () → Announced (k ())) := by
  cases hc : checkExp exp leeway now with
  | ok u => simp
  | error e =>
    have hann : Announced (.error e) := by
      unfold checkExp at hc
      split at hc
      · cases hc
        trivial
      · unfold ensure at hc
        split_ifs at hc
        cases hc
        trivial
    simp [hann]

theorem announced_checkIat_bind {iat : Option Json} {leeway now : ℚ}
    {k : Unit → Except Exn Caller} :
    Announced (checkIat iat leeway now >>= k) ↔
      (checkIat iat leeway now = .ok () → Announced (k ())) := by
  cases hc : checkIat iat leeway now with
  | ok u => simp
  | error e =>
    have hann : Announced (.error e) := by
      unfold checkIat at hc
      split at hc
      · cases hc
      · unfold ensure at hc
        split_ifs at hc
        cases hc
        trivial
    simp [hann]

theorem announced_keysFor_bind {b : Bundle String} {s : String} {k : List Json → Except Exn Caller} :
    Announced (keysFor b s >>= k) ↔ ∀ jwks, b.identities.lookup s = some jwks → Announced (k jwks) := by
  unfold keysFor
  cases b.identities.lookup s with
  | none => simp [Announced]
  | some jwks => simp

theorem announced_candidates_bind {jwks : List Json} {kid : Option Json}
    {k : List Json → Except Exn Caller} :
    Announced (candidates jwks kid >>= k) ↔
      (∀ jwk ∈ jwks, jwk ≠ .null) ∧
        ∀ cs, candidates jwks kid = .ok cs → Announced (k cs) := by
  rw [← candidates_isOk_iff jwks kid]
  cases hc : candidates jwks kid with
  | ok cs => simp
  | error e =>
    have hno : ¬ Announced (.error e) := by
      unfold candidates at hc
      dsimp only at hc
      split_ifs at hc
      cases hc
      exact id
    rw [error_bind]
    exact iff_of_false hno (by simp)

theorem announced_tryCandidates_iff (node : Node) (input signatureText : String) (id : SpiffeId)
    (claims : Json) (cs : List Json) :
    Announced (tryCandidates node input signatureText id claims cs) ↔
      ¬ LoopEscapes node input signatureText cs := by
  have hend : ∀ _ : Unit, Announced (.error (.invalidToken (.noMatch id.toString))) :=
    fun _ => trivial
  unfold tryCandidates
  rw [Scan.scan_good_iff _ _ Announced () cs (Or.inl hend)]
  have hcont : ∀ jwk, Scan.Continues (tryCandidate node input signatureText id claims) jwk ↔
      ¬ VerifiesUnder node jwk input signatureText ∧ ¬ Throws node input signatureText jwk := by
    intro jwk
    have hverdict : Scan.Verdict (tryCandidate node input signatureText id claims)
        (fun result => result.isOk = true) (fun jwk => VerifiesUnder node jwk input signatureText)
        (Throws node input signatureText) jwk := verdict input signatureText claims jwk
    cases hverdict with
    | accepted b ha _ hb _ =>
      exact iff_of_false ((Scan.not_continues _ jwk).mpr ⟨b, hb⟩) fun h => h.1 ha
    | spoiled b hs hb _ =>
      exact iff_of_false ((Scan.not_continues _ jwk).mpr ⟨b, hb⟩) fun h => h.2 hs
    | passed ha hs hc => exact iff_of_true hc ⟨ha, hs⟩
  constructor
  · rintro hall ⟨pre, jwk, post, hcs, hpre, key, hload, hthrow⟩
    exact hall pre jwk post (.error .cryptoError) hcs (fun j hj => (hcont j).mpr (hpre j hj))
      (by simp only [tryCandidate, hload, hthrow])
  · intro hno pre jwk post result hcs hpre hresult
    unfold tryCandidate at hresult
    split at hresult
    · cases hresult
    · next key hload =>
      split at hresult
      · next hthrow =>
        exact absurd ⟨pre, jwk, post, hcs, fun j hj => (hcont j).mp (hpre j hj), key, hload, hthrow⟩
          hno
      · cases hresult
        trivial
      · cases hresult

theorem exists_props {v : Json} (hv : v ≠ .null) :
    ∃ P : String → Option Json, ∀ name, Json.jsProp? v name = some (P name) := by
  refine ⟨fun name => (Json.jsProp? v name).getD none, fun name => ?_⟩
  cases v <;> first | rfl | exact absurd rfl hv

theorem announced_verifyParsed_iff (node : Node) (own : SpiffeId) (file : BundleFile)
    (b : Bundle String) (hb : sourceGet file = .ok b) (now : ℚ) (input signatureText : String)
    (header claims : Json) (audience : Option String) (leeway : ℚ) :
    Announced (verifyParsed node own file now input signatureText header claims audience leeway) ↔
      HarmlessParsed node b own now input signatureText header claims audience leeway := by
  have haud : ∀ aud : Option Json,
      Json.jsStrictEq aud (some (.str (expectedAudience own audience))) = true ↔
        aud = some (.str (expectedAudience own audience)) :=
    fun aud => Json.jsStrictEq_str aud _
  unfold verifyParsed HarmlessParsed
  simp only [announced_prop_bind, announced_checkAlgorithm_bind, announced_checkSub_bind,
    announced_parseSub_bind, announced_ensure_bind, announced_checkExp_bind,
    announced_checkIat_bind, hb, ok_bind, announced_keysFor_bind, announced_candidates_bind,
    announced_tryCandidates_iff, haud]
  by_cases hh : header = .null
  · subst hh
    simp [Json.jsProp?]
  · obtain ⟨H, hH⟩ := exists_props hh
    simp only [hH, Option.some.injEq, exists_eq_left', Option.getD_some]
    refine and_congr_right fun _ => imp_congr_right fun _ => ?_
    by_cases hc : claims = .null
    · subst hc
      simp [Json.jsProp?]
    · obtain ⟨P, hP⟩ := exists_props hc
      simp only [hP, Option.some.injEq, exists_eq_left', Option.getD_some, ne_eq, hc,
        not_false_eq_true, true_and]
      refine forall_congr' fun sub => imp_congr_right fun _ => imp_congr_right fun _ => ?_
      refine exists_congr fun id => and_congr_right fun hid => ?_
      rw [toString_of_parse ((ts_parse_eq sub).symm.trans hid)]

/-- With a bundle that has loaded, another exception leaves the call exactly
when the token is not harmless. -/
theorem announced_iff (node : Node) (own : SpiffeId) (file : BundleFile) (b : Bundle String)
    (hb : sourceGet file = .ok b) (now : ℚ) (token : String) (audience : Option String)
    (leeway : ℚ) :
    Announced (verify node own file now token audience leeway) ↔
      Harmless node b own now token audience leeway := by
  unfold verify Harmless
  split
  · next h p s hseg =>
    simp only [announced_parsed_bind, announced_verifyParsed_iff node own file b hb]
    constructor
    · intro hall h' p' s' header claims hseg' hheader hclaims
      rw [hseg] at hseg'
      cases hseg'
      exact hall header hheader claims hclaims
    · exact fun hall header hheader claims hclaims => hall h p s header claims hseg hheader hclaims
  · next hne =>
    exact iff_of_true trivial fun h p s _ _ hseg => absurd hseg (hne h p s)

end Ts

namespace Sample

def strayText : String := "eyJzdWIiOiJhYmMifQ"

/-- A payload that claims `abc`. -/
def straySegment (text : String) : Option Json :=
  if text = headerText then some (.obj header)
  else if text = strayText then some (.obj [("sub", .str "abc")]) else none

def strayPyJwt : Py.PyJwt :=
  Py.PyJwt.reference Unit straySegment (fun _ => .ok ()) (fun _ => true) (fun _ _ _ => false)
    (fun _ _ _ _ => token)

def strayNode : Ts.Node := { node with parseSegment := straySegment }

def strayToken : String := headerText ++ "." ++ strayText ++ ".c2ln"

end Sample

end Spiffile
