import Spiffile.VerifySound

/-!
# The loop over the candidate keys

Which bound values a verifier tries, and what stops it: a key that verifies, a
claim that fails, or, in Python and TypeScript, a value whose handling raises.
-/

namespace Spiffile

namespace Py

/-- The value is an object with this `kid`. -/
def Carries (kid : String) (jwk : Json) : Prop :=
  ∃ ms, jwk = .obj ms ∧ Members.get? ms "kid" = some (.str kid)

/-- The object loads as an EC key, and the key verifies. -/
def Accepts (lib : PyJwt) (input signatureText : String) (ms : Members) : Prop :=
  ∃ key, lib.fromDict ms = .ok key ∧ lib.isEc key = true ∧
    lib.verifies key input signatureText = true

/-- The object is refused with another error than `PyJWKError`, or it loads as
a key that is no EC key. -/
def Poisons (lib : PyJwt) (ms : Members) : Prop :=
  (∃ e, lib.fromDict ms = .error e ∧ ∀ text, e ≠ .pyJwt ⟨.pyJwk, text⟩) ∨
    ∃ key, lib.fromDict ms = .ok key ∧ lib.isEc key = false

/-- The list has a key that verifies, under this `kid` or where no element
carries it. -/
def Usable (lib : PyJwt) (input signatureText kid : String) (jwks : List Json) : Prop :=
  (∃ ms, Json.obj ms ∈ jwks ∧ Members.get? ms "kid" = some (.str kid) ∧
      Accepts lib input signatureText ms) ∨
    ((∀ jwk ∈ jwks, ¬ Carries kid jwk) ∧
      ∃ ms, Json.obj ms ∈ jwks ∧ Accepts lib input signatureText ms)

/-- Every element is an object, and no poisonous candidate stands before the
first one that verifies. -/
def Unspoiled (lib : PyJwt) (input signatureText kid : String) (jwks : List Json) : Prop :=
  (∀ jwk ∈ jwks, ∃ ms, jwk = .obj ms) ∧
    ∀ cs, candidates jwks (some (.str kid)) = .ok cs → ∀ pre ms post, cs = pre ++ ms :: post →
      (∀ m ∈ pre, ¬ Accepts lib input signatureText m) → ¬ Poisons lib ms

/-- The token is in order up to its signature and its times, and the bundle
binds its `sub` to `jwks`. The header may be without a `kid`. -/
structure Presented (lib : PyJwt) (own : SpiffeId) (file : BundleFile) (token : String)
    (audience : Option String) (h p s : String) (header claims : Members) (kid : Option String)
    (id : SpiffeId) (jwks : List Json) : Prop where
  reads : lib.Reads token h p s header claims
  header_ok : lib.getUnverifiedHeader token = .ok header
  claims_ok : lib.decodeUnverified token = .ok claims
  alg : Members.get? header "alg" = some (.str algorithm)
  kid_eq : Members.get? header "kid" = kid.map .str
  sub : Members.get? claims "sub" = some (.str id.toString)
  id_ok : Go.parseSpiffeID id.toString = .ok id
  aud : Members.get? claims "aud" = some (.str (expectedAudience own audience))
  bound : ∃ b, readBundle file = .ok b ∧ b.identities.lookup id.toString = some jwks

/-- Everything about the token but its signature is in order, and the bundle
binds its `sub` to `jwks`. -/
structure Ready (lib : PyJwt) (own : SpiffeId) (file : BundleFile) (now : ℚ) (token : String)
    (audience : Option String) (leeway : ℚ) (h p s : String) (header claims : Members)
    (kid : String) (id : SpiffeId) (jwks : List Json) : Prop where
  reads : lib.Reads token h p s header claims
  alg : Members.get? header "alg" = some (.str algorithm)
  kid_eq : Members.get? header "kid" = some (.str kid)
  sub : Members.get? claims "sub" = some (.str id.toString)
  id_ok : Go.parseSpiffeID id.toString = .ok id
  aud : Members.get? claims "aud" = some (.str (expectedAudience own audience))
  valid : lib.claimsValid claims (verifyOptions (expectedAudience own audience) leeway) now = true
  bound : ∃ b, readBundle file = .ok b ∧ b.identities.lookup id.toString = some jwks

section
variable {lib : PyJwt} {own : SpiffeId} {file : BundleFile} {now : ℚ} {token : String}
  {audience : Option String} {leeway : ℚ} {h p s : String} {header claims : Members} {kid : String}
  {id : SpiffeId} {jwks : List Json}

theorem Ready.presented (hlib : lib.Documented)
    (r : Ready lib own file now token audience leeway h p s header claims kid id jwks) :
    Presented lib own file token audience h p s header claims (some kid) id jwks := by
  obtain ⟨hheader, hclaims⟩ := hlib.unverified_complete _ _ _ _ _ _ _ r.reads r.kid_eq
  exact ⟨r.reads, hheader, hclaims, r.alg, r.kid_eq, r.sub, r.id_ok, r.aud, r.bound⟩

/-- What is left of the call is its loop. -/
theorem Presented.verify_eq {kid : Option String}
    (r : Presented lib own file token audience h p s header claims kid id jwks) :
    verify lib own file now token audience leeway =
      (candidates jwks (kid.map .str) >>=
        tryCandidates lib token (verifyOptions (expectedAudience own audience) leeway) now id none) := by
  obtain ⟨b, hb, hl⟩ := r.bound
  have hne : id.toString ≠ "" := by
    intro he
    have hid := r.id_ok
    rw [he] at hid
    cases hid
  have hparse : parseClaim (.str id.toString) = .ok id := by
    simp only [parseClaim, py_parse_eq, r.id_ok]
  have hkeys : keysFor b id.toString = .ok jwks := by simp only [keysFor, hl]
  have htruthy : (Json.str id.toString).pyTruthy = true := by simpa [Json.pyTruthy] using hne
  unfold verify
  simp only [r.header_ok, r.claims_ok, orMalformed, ok_bind, r.sub, Option.getD_some, htruthy,
    ensure_true, hparse, r.aud, absentOrString, hb, hkeys, r.kid_eq]

theorem Ready.verify_eq (hlib : lib.Documented)
    (r : Ready lib own file now token audience leeway h p s header claims kid id jwks) :
    verify lib own file now token audience leeway =
      (candidates jwks (some (.str kid)) >>=
        tryCandidates lib token (verifyOptions (expectedAudience own audience) leeway) now id none) :=
  (r.presented hlib).verify_eq

/-- What the body of the loop does with an object. -/
theorem Presented.verdict {kid : Option String} (hlib : lib.Documented)
    (r : Presented lib own file token audience h p s header claims kid id jwks)
    (hvalid : lib.claimsValid claims (verifyOptions (expectedAudience own audience) leeway) now = true)
    (ms : Members) :
    Scan.Verdict
      (tryCandidate lib token (verifyOptions (expectedAudience own audience) leeway) now id)
      (fun result => result.isOk = true) (Accepts lib (signingInput h p) s) (Poisons lib) ms := by
  have hmem : algorithm ∈ (verifyOptions (expectedAudience own audience) leeway).algorithms :=
    List.mem_singleton_self _
  cases hf : lib.fromDict ms with
  | error e =>
    by_cases hjwk : ∃ text, e = .pyJwt ⟨.pyJwk, text⟩
    · obtain ⟨text, rfl⟩ := hjwk
      refine .passed ?_ ?_ ⟨some text, by simp only [tryCandidate, hf]⟩
      · rintro ⟨key, hk, -⟩
        rw [hf] at hk
        cases hk
      · rintro (⟨e, he, hne⟩ | ⟨key, hk, -⟩)
        · rw [hf] at he
          cases he
          exact hne text rfl
        · rw [hf] at hk
          cases hk
    · rw [not_exists] at hjwk
      exact .spoiled (.error (.lib e)) (Or.inl ⟨e, hf, hjwk⟩) (by simp only [tryCandidate, hf])
        (by simp [Except.isOk, Except.toBool])
  | ok key =>
    cases hec : lib.isEc key with
    | false =>
      have hd := hlib.decode_notEc token key (verifyOptions (expectedAudience own audience) leeway)
        now h p s header claims algorithm r.reads r.alg hmem hec
      exact .spoiled (.error (.lib .typeError)) (Or.inr ⟨key, hf, hec⟩)
        (by simp only [tryCandidate, hf, hd]) (by simp [Except.isOk, Except.toBool])
    | true =>
      have hclean : ¬ Poisons lib ms := by
        rintro (⟨e, he, -⟩ | ⟨key', hk, hec'⟩)
        · rw [hf] at he
          cases he
        · rw [hf] at hk
          cases hk
          rw [hec] at hec'
          cases hec'
      cases hv : lib.verifies key (signingInput h p) s with
      | true =>
        have hd := hlib.decode_complete token key
          (verifyOptions (expectedAudience own audience) leeway) now h p s header claims algorithm
          r.reads r.alg hmem hec hv hvalid
        exact .accepted (.ok ⟨id, .obj claims⟩) ⟨key, hf, hec, hv⟩ hclean
          (by simp only [tryCandidate, hf, hd]) rfl
      | false =>
        obtain ⟨text, hd⟩ := hlib.decode_badSignature token key
          (verifyOptions (expectedAudience own audience) leeway) now h p s header claims algorithm
          r.reads r.alg hmem hec hv
        refine .passed ?_ hclean ⟨some text, by simp only [tryCandidate, hf, hd]⟩
        rintro ⟨key', hk, -, hv'⟩
        rw [hf] at hk
        cases hk
        rw [hv] at hv'
        cases hv'

theorem Ready.verdict (hlib : lib.Documented)
    (r : Ready lib own file now token audience leeway h p s header claims kid id jwks)
    (ms : Members) :
    Scan.Verdict
      (tryCandidate lib token (verifyOptions (expectedAudience own audience) leeway) now id)
      (fun result => result.isOk = true) (Accepts lib (signingInput h p) s) (Poisons lib) ms :=
  (r.presented hlib).verdict hlib r.valid ms

/-- An accepting key of the list is a candidate: it carries the kid, or none
does. -/
theorem exists_candidate {good : Members → Prop} {cs : List Members}
    (hcs : candidates jwks (some (.str kid)) = .ok cs)
    (hgood : (∃ ms, Json.obj ms ∈ jwks ∧ Members.get? ms "kid" = some (.str kid) ∧ good ms) ∨
      ((∀ jwk ∈ jwks, ¬ Carries kid jwk) ∧ ∃ ms, Json.obj ms ∈ jwks ∧ good ms)) :
    ∃ ms ∈ cs, good ms := by
  unfold candidates at hcs
  split at hcs
  · cases hcs
  · next dicts hd =>
    cases hcs
    have hjwks := asDicts_eq_some hd
    have hmem : ∀ ms, Json.obj ms ∈ jwks → ms ∈ dicts := by
      intro ms hms
      rw [hjwks] at hms
      obtain ⟨ms', hms', he⟩ := List.mem_map.mp hms
      cases he
      exact hms'
    rcases hgood with ⟨ms, hms, hkid, hg⟩ | ⟨hnone, ms, hms, hg⟩
    · have hfilter : ms ∈ dicts.filter fun j =>
          Json.pyGetEq (Members.get? j "kid") (some (.str kid)) :=
        List.mem_filter.mpr ⟨hmem ms hms, (Json.pyGetEq_str _ kid).mpr hkid⟩
      refine ⟨ms, ?_, hg⟩
      rw [if_neg (by simpa using List.ne_nil_of_mem hfilter)]
      exact hfilter
    · have hempty : (dicts.filter fun j =>
          Json.pyGetEq (Members.get? j "kid") (some (.str kid))) = [] := by
        refine List.filter_eq_nil_iff.mpr fun m hm hk => ?_
        exact hnone (.obj m) (hjwks ▸ List.mem_map_of_mem hm) ⟨m, rfl, (Json.pyGetEq_str _ kid).mp hk⟩
      refine ⟨ms, ?_, hg⟩
      rw [hempty]
      exact hmem ms hms

theorem asDicts_isSome_iff (jwks : List Json) :
    (∃ dicts, asDicts jwks = some dicts) ↔ ∀ jwk ∈ jwks, ∃ ms, jwk = .obj ms := by
  constructor
  · rintro ⟨dicts, hd⟩ jwk hjwk
    rw [asDicts_eq_some hd] at hjwk
    obtain ⟨ms, -, rfl⟩ := List.mem_map.mp hjwk
    exact ⟨ms, rfl⟩
  · intro hall
    induction jwks with
    | nil => exact ⟨[], rfl⟩
    | cons jwk jwks ih =>
      rw [List.forall_mem_cons] at hall
      obtain ⟨ms, rfl⟩ := hall.1
      obtain ⟨dicts, hd⟩ := ih hall.2
      exact ⟨ms :: dicts, by simp only [asDicts, hd, Option.map_some]⟩

theorem candidates_isOk_iff (jwks : List Json) (kid : Option Json) :
    (∃ cs, candidates jwks kid = .ok cs) ↔ ∀ jwk ∈ jwks, ∃ ms, jwk = .obj ms := by
  rw [← asDicts_isSome_iff]
  unfold candidates
  cases asDicts jwks <;> simp

/-- A usable key of the list is accepted, unless a value that is no object
stands anywhere in it or a poisonous candidate stands before the key. -/
theorem Ready.isOk_iff (hlib : lib.Documented)
    (r : Ready lib own file now token audience leeway h p s header claims kid id jwks)
    (husable : Usable lib (signingInput h p) s kid jwks) :
    (verify lib own file now token audience leeway).isOk = true ↔
      Unspoiled lib (signingInput h p) s kid jwks := by
  rw [r.verify_eq hlib]
  unfold Unspoiled
  rw [← candidates_isOk_iff jwks (some (.str kid))]
  cases hcs : candidates jwks (some (.str kid)) with
  | error e => simp [Except.isOk, Except.toBool]
  | ok cs =>
    have hacc := exists_candidate hcs husable
    rw [ok_bind, tryCandidates, Scan.scan_ok_iff _ _ (r.verdict hlib) none cs hacc]
    simp

end

end Py

namespace Ts

/-- The value has this `kid`. -/
def Carries (kid : String) (jwk : Json) : Prop :=
  Json.jsProp? jwk "kid" = some (some (.str kid))

/-- The value loads as a key for which `cryptoVerify` throws. -/
def Throws (node : Node) (input signatureText : String) (jwk : Json) : Prop :=
  ∃ key, loadKey node jwk = some key ∧ node.cryptoVerify key input signatureText = none

/-- The list has a key that verifies, under this `kid` or where no element
carries it. -/
def Usable (node : Node) (input signatureText kid : String) (jwks : List Json) : Prop :=
  (∃ jwk ∈ jwks, Carries kid jwk ∧ VerifiesUnder node jwk input signatureText) ∨
    ((∀ jwk ∈ jwks, ¬ Carries kid jwk) ∧ ∃ jwk ∈ jwks, VerifiesUnder node jwk input signatureText)

/-- No element is `null`, and no candidate for which `cryptoVerify` throws
stands before the first one that verifies. -/
def Unspoiled (node : Node) (input signatureText kid : String) (jwks : List Json) : Prop :=
  (∀ jwk ∈ jwks, jwk ≠ .null) ∧
    ∀ cs, candidates jwks (some (.str kid)) = .ok cs → ∀ pre jwk post, cs = pre ++ jwk :: post →
      (∀ j ∈ pre, ¬ VerifiesUnder node j input signatureText) →
      ¬ Throws node input signatureText jwk

/-- The token is in order up to its signature and its times, and the bundle
binds its `sub` to `jwks`. The header may be without a `kid`. -/
structure Presented (node : Node) (own : SpiffeId) (file : BundleFile) (token : String)
    (audience : Option String) (h p s : String) (header claims : Members) (kid : Option String)
    (id : SpiffeId) (jwks : List Json) : Prop where
  segs : segments token = [h, p, s]
  header_ok : node.parseSegment h = some (.obj header)
  claims_ok : node.parseSegment p = some (.obj claims)
  alg : Members.get? header "alg" = some (.str algorithm)
  kid_eq : Members.get? header "kid" = kid.map .str
  sub : Members.get? claims "sub" = some (.str id.toString)
  id_ok : Go.parseSpiffeID id.toString = .ok id
  aud : Members.get? claims "aud" = some (.str (expectedAudience own audience))
  bound : ∃ b, sourceGet file = .ok b ∧ b.identities.lookup id.toString = some jwks

/-- Everything about the token but its signature is in order, and the bundle
binds its `sub` to `jwks`. -/
structure Ready (node : Node) (own : SpiffeId) (file : BundleFile) (now : ℚ) (token : String)
    (audience : Option String) (leeway : ℚ) (h p s : String) (header claims : Members)
    (kid : String) (id : SpiffeId) (jwks : List Json) : Prop where
  segs : segments token = [h, p, s]
  header_ok : node.parseSegment h = some (.obj header)
  claims_ok : node.parseSegment p = some (.obj claims)
  alg : Members.get? header "alg" = some (.str algorithm)
  kid_eq : Members.get? header "kid" = some (.str kid)
  sub : Members.get? claims "sub" = some (.str id.toString)
  id_ok : Go.parseSpiffeID id.toString = .ok id
  aud : Members.get? claims "aud" = some (.str (expectedAudience own audience))
  exp : checkExp (Members.get? claims "exp") leeway now = .ok ()
  iat : checkIat (Members.get? claims "iat") leeway now = .ok ()
  bound : ∃ b, sourceGet file = .ok b ∧ b.identities.lookup id.toString = some jwks

section
variable {node : Node} {own : SpiffeId} {file : BundleFile} {now : ℚ} {token : String}
  {audience : Option String} {leeway : ℚ} {h p s : String} {header claims : Members} {kid : String}
  {id : SpiffeId} {jwks : List Json}

theorem prop_obj (ms : Members) (name : String) : prop (.obj ms) name = .ok (Members.get? ms name) :=
  rfl

theorem Ready.presented
    (r : Ready node own file now token audience leeway h p s header claims kid id jwks) :
    Presented node own file token audience h p s header claims (some kid) id jwks :=
  ⟨r.segs, r.header_ok, r.claims_ok, r.alg, r.kid_eq, r.sub, r.id_ok, r.aud, r.bound⟩

/-- What is left of the call are the times and the loop, whatever the header
has as `kid`. -/
theorem verify_eq_of_order {b : Bundle String} (hsegs : segments token = [h, p, s])
    (hheader : node.parseSegment h = some (.obj header))
    (hclaims : node.parseSegment p = some (.obj claims))
    (hheaderAlg : Members.get? header "alg" = some (.str algorithm))
    (hclaimsSub : Members.get? claims "sub" = some (.str id.toString))
    (hid : Go.parseSpiffeID id.toString = .ok id)
    (hclaimsAud : Members.get? claims "aud" = some (.str (expectedAudience own audience)))
    (hb : sourceGet file = .ok b) (hl : b.identities.lookup id.toString = some jwks) :
    verify node own file now token audience leeway =
      (checkExp (Members.get? claims "exp") leeway now >>= fun _ =>
        checkIat (Members.get? claims "iat") leeway now >>= fun _ =>
          candidates jwks (Members.get? header "kid") >>=
            tryCandidates node (signingInput h p) s id (.obj claims)) := by
  have hne : id.toString ≠ "" := by
    intro he
    rw [he] at hid
    cases hid
  have halg : checkAlgorithm (some (.str algorithm)) = .ok () := by
    simp [checkAlgorithm, Json.jsStrictEq]
  have hsub : checkSub (some (.str id.toString)) = .ok id.toString := by
    simp only [checkSub, hne, if_false]
  have hparse : parseSub id.toString = .ok id := by
    simp only [parseSub, ts_parse_eq, hid]
  have haud : Json.jsStrictEq (some (.str (expectedAudience own audience)))
      (some (.str (expectedAudience own audience))) = true := by
    simp [Json.jsStrictEq]
  have hkeys : keysFor b id.toString = .ok jwks := by simp only [keysFor, hl]
  unfold verify
  simp only [hsegs, hheader, hclaims, parsed, ok_bind, verifyParsed, prop_obj, hheaderAlg, halg,
    hclaimsSub, hsub, hparse, hclaimsAud, haud, ensure_true, hb, hkeys]

theorem Presented.verify_eq {kid : Option String}
    (r : Presented node own file token audience h p s header claims kid id jwks) :
    verify node own file now token audience leeway =
      (checkExp (Members.get? claims "exp") leeway now >>= fun _ =>
        checkIat (Members.get? claims "iat") leeway now >>= fun _ =>
          candidates jwks (kid.map .str) >>=
            tryCandidates node (signingInput h p) s id (.obj claims)) := by
  obtain ⟨b, hb, hl⟩ := r.bound
  rw [verify_eq_of_order r.segs r.header_ok r.claims_ok r.alg r.sub r.id_ok r.aud hb hl, r.kid_eq]

theorem Ready.verify_eq
    (r : Ready node own file now token audience leeway h p s header claims kid id jwks) :
    verify node own file now token audience leeway =
      (candidates jwks (some (.str kid)) >>=
        tryCandidates node (signingInput h p) s id (.obj claims)) := by
  rw [r.presented.verify_eq, r.exp, r.iat]
  rfl

/-- What the body of the loop does with a value. -/
theorem verdict (input signatureText : String) (claims : Json) (jwk : Json) :
    Scan.Verdict (tryCandidate node input signatureText id claims)
      (fun result => result.isOk = true) (fun jwk => VerifiesUnder node jwk input signatureText)
      (Throws node input signatureText) jwk := by
  cases hk : loadKey node jwk with
  | none =>
    refine .passed ?_ ?_ ⟨(), by simp only [tryCandidate, hk]⟩
    · rintro ⟨key, hk', -⟩
      rw [hk] at hk'
      cases hk'
    · rintro ⟨key, hk', -⟩
      rw [hk] at hk'
      cases hk'
  | some key =>
    have hkey : ∀ v, node.cryptoVerify key input signatureText ≠ v →
        ∀ key', loadKey node jwk = some key' → node.cryptoVerify key' input signatureText ≠ v := by
      intro v hv key' hk'
      rw [hk] at hk'
      cases hk'
      exact hv
    cases hv : node.cryptoVerify key input signatureText with
    | none =>
      exact .spoiled (.error .cryptoError) ⟨key, hk, hv⟩ (by simp only [tryCandidate, hk, hv])
        (by simp [Except.isOk, Except.toBool])
    | some b =>
      have hno : ¬ Throws node input signatureText jwk := by
        rintro ⟨key', hk', hv'⟩
        exact hkey none (by simp [hv]) key' hk' hv'
      cases b with
      | true =>
        exact .accepted (.ok ⟨id, claims⟩) ⟨key, hk, hv⟩ hno (by simp only [tryCandidate, hk, hv]) rfl
      | false =>
        refine .passed ?_ hno ⟨(), by simp only [tryCandidate, hk, hv]⟩
        rintro ⟨key', hk', hv'⟩
        exact hkey (some true) (by simp [hv]) key' hk' hv'

theorem candidates_eq_ok {kid : Option Json} {cs : List Json} (hcs : candidates jwks kid = .ok cs) :
    cs = (if (jwks.filter fun jwk =>
        Json.jsStrictEq ((Json.jsProp? jwk "kid").getD none) kid).isEmpty then jwks
      else jwks.filter fun jwk => Json.jsStrictEq ((Json.jsProp? jwk "kid").getD none) kid) := by
  unfold candidates at hcs
  dsimp only at hcs
  split_ifs at hcs ⊢ <;> cases hcs <;> rfl

theorem exists_candidate {good : Json → Prop} {cs : List Json}
    (hcs : candidates jwks (some (.str kid)) = .ok cs)
    (hgood : (∃ jwk ∈ jwks, Carries kid jwk ∧ good jwk) ∨
      ((∀ jwk ∈ jwks, ¬ Carries kid jwk) ∧ ∃ jwk ∈ jwks, good jwk)) :
    ∃ jwk ∈ cs, good jwk := by
  rw [candidates_eq_ok hcs]
  rcases hgood with ⟨jwk, hjwk, hkid, hg⟩ | ⟨hnone, jwk, hjwk, hg⟩
  · have hfilter : jwk ∈ jwks.filter fun jwk =>
        Json.jsStrictEq ((Json.jsProp? jwk "kid").getD none) (some (.str kid)) := by
      refine List.mem_filter.mpr ⟨hjwk, ?_⟩
      have hprop : Json.jsProp? jwk "kid" = some (some (.str kid)) := hkid
      simp [hprop, Json.jsStrictEq]
    refine ⟨jwk, ?_, hg⟩
    rw [if_neg (by simpa using List.ne_nil_of_mem hfilter)]
    exact hfilter
  · have hempty : (jwks.filter fun jwk =>
        Json.jsStrictEq ((Json.jsProp? jwk "kid").getD none) (some (.str kid))) = [] := by
      refine List.filter_eq_nil_iff.mpr fun j hj hk => hnone j hj ?_
      have hstr := (Json.jsStrictEq_str _ _).mp hk
      cases hp : Json.jsProp? j "kid" with
      | none => simp [hp] at hstr
      | some v =>
        rw [hp, Option.getD_some] at hstr
        exact hp.trans (congrArg some hstr)
    rw [hempty]
    exact ⟨jwk, hjwk, hg⟩

theorem candidates_isOk_iff (jwks : List Json) (kid : Option Json) :
    (∃ cs, candidates jwks kid = .ok cs) ↔ ∀ jwk ∈ jwks, jwk ≠ .null := by
  have hnull : ∀ jwk, (Json.jsProp? jwk "kid").isNone = true ↔ jwk = .null := by
    intro jwk
    cases jwk <;> simp [Json.jsProp?]
  unfold candidates
  dsimp only
  split_ifs with hany
  · obtain ⟨jwk, hjwk, hn⟩ := List.any_eq_true.mp hany
    simp only [exists_false, false_iff]
    exact fun hall => hall jwk hjwk ((hnull jwk).mp hn)
  all_goals
    simp only [Except.ok.injEq, exists_eq', true_iff]
    exact fun jwk hjwk he => hany (List.any_eq_true.mpr ⟨jwk, hjwk, (hnull jwk).mpr he⟩)

/-- A usable key of the list is accepted, unless a `null` stands anywhere in it
or a candidate for which `cryptoVerify` throws stands before the key. -/
theorem Ready.isOk_iff
    (r : Ready node own file now token audience leeway h p s header claims kid id jwks)
    (husable : Usable node (signingInput h p) s kid jwks) :
    (verify node own file now token audience leeway).isOk = true ↔
      Unspoiled node (signingInput h p) s kid jwks := by
  rw [r.verify_eq]
  unfold Unspoiled
  rw [← candidates_isOk_iff jwks (some (.str kid))]
  cases hcs : candidates jwks (some (.str kid)) with
  | error e => simp [Except.isOk, Except.toBool]
  | ok cs =>
    have hacc := exists_candidate hcs husable
    rw [ok_bind, tryCandidates,
      Scan.scan_ok_iff _ _ (verdict (signingInput h p) s (.obj claims)) () cs hacc]
    simp

end

end Ts

namespace Go

/-- The value decodes as a JWK with this `kid`. -/
def Carries (kid : String) (jwk : Json) : Prop := ∃ j, decodeJwk jwk = some j ∧ j.kid = kid

/-- The list has a key that verifies, under this `kid` or where no element
carries it. -/
def Usable (lib : GoJwt) (input signatureText kid : String) (jwks : List Json) : Prop :=
  (∃ jwk ∈ jwks, Carries kid jwk ∧ VerifiesUnder lib jwk input signatureText) ∨
    ((∀ jwk ∈ jwks, ¬ Carries kid jwk) ∧ ∃ jwk ∈ jwks, VerifiesUnder lib jwk input signatureText)

/-- The token is in order up to its signature and its times, and the bundle
binds its `sub` to `jwks`. The header may be without a `kid`. -/
structure Presented (lib : GoJwt) (own : SpiffeId) (file : BundleFile) (token audience : String)
    (h p s : String) (header claims : Members) (kid : Option String) (id : SpiffeId)
    (jwks : List Json) : Prop where
  reads : lib.Reads token h p s header claims
  alg : Members.get? header "alg" = some (.str algorithm)
  kid_eq : Members.get? header "kid" = kid.map .str
  sub : Members.get? claims "sub" = some (.str id.toString)
  id_ok : Go.parseSpiffeID id.toString = .ok id
  aud : Members.get? claims "aud" = some (.str (expectedAudience own audience))
  bound : ∃ b, readBundle file = .ok b ∧ b.identities.lookup id.toString = some jwks

/-- Everything about the token but its signature is in order, and the bundle
binds its `sub` to `jwks`. -/
structure Ready (lib : GoJwt) (own : SpiffeId) (file : BundleFile) (now : ℚ) (token : String)
    (audience : String) (leeway : ℚ) (h p s : String) (header claims : Members)
    (kid : String) (id : SpiffeId) (jwks : List Json) : Prop where
  reads : lib.Reads token h p s header claims
  alg : Members.get? header "alg" = some (.str algorithm)
  kid_eq : Members.get? header "kid" = some (.str kid)
  sub : Members.get? claims "sub" = some (.str id.toString)
  id_ok : Go.parseSpiffeID id.toString = .ok id
  aud : Members.get? claims "aud" = some (.str (expectedAudience own audience))
  valid : lib.claimsValid claims
    (verifyOptions (expectedAudience own audience) (effectiveLeeway leeway)) now = true
  bound : ∃ b, readBundle file = .ok b ∧ b.identities.lookup id.toString = some jwks

section
variable {lib : GoJwt} {own : SpiffeId} {file : BundleFile} {now : ℚ} {token : String}
  {audience : String} {leeway : ℚ} {h p s : String} {header claims : Members} {kid : String}
  {id : SpiffeId} {jwks : List Json}

theorem Ready.presented
    (r : Ready lib own file now token audience leeway h p s header claims kid id jwks) :
    Presented lib own file token audience h p s header claims (some kid) id jwks :=
  ⟨r.reads, r.alg, r.kid_eq, r.sub, r.id_ok, r.aud, r.bound⟩

/-- What is left of the call is its loop. -/
theorem Presented.verify_eq {kid : Option String} (hlib : lib.Documented)
    (r : Presented lib own file token audience h p s header claims kid id jwks) :
    verify lib own file now token audience leeway =
      (ensure (!(candidateKeys jwks (kid.getD "")).isEmpty) (.noUsableKeys id.toString) >>= fun _ =>
        tryCandidates lib token
          (verifyOptions (expectedAudience own audience) (effectiveLeeway leeway)) now id
          id.toString "" (candidateKeys jwks (kid.getD ""))) := by
  have hunv := hlib.unverified_complete _ _ _ _ _ _ r.reads r.alg
  obtain ⟨b, hb, hl⟩ := r.bound
  have hsubNe : id.toString ≠ "" := by
    intro he
    have hid := r.id_ok
    rw [he] at hid
    cases hid
  have hsub : claimedSubject lib claims = .ok id.toString := by
    simp only [claimedSubject, (hlib.subject claims _ hsubNe).mpr r.sub, hsubNe, if_false]
  have hkeys : keysFor b id.toString = .ok jwks := by simp only [keysFor, hl]
  have hkid : headerKid header = kid.getD "" := by
    rw [headerKid, r.kid_eq]
    cases kid <;> rfl
  unfold verify
  simp only [hunv, orElse, ok_bind, hsub, r.id_ok, r.aud, absentOrString, ensure_true, hb, hkeys,
    hkid]

theorem Ready.verify_eq (hlib : lib.Documented)
    (r : Ready lib own file now token audience leeway h p s header claims kid id jwks)
    (hne : candidateKeys jwks kid ≠ []) :
    verify lib own file now token audience leeway =
      tryCandidates lib token
        (verifyOptions (expectedAudience own audience) (effectiveLeeway leeway)) now id
        id.toString "" (candidateKeys jwks kid) := by
  have hcand : (!(candidateKeys jwks kid).isEmpty) = true := by simpa using hne
  rw [r.presented.verify_eq hlib, Option.getD_some, hcand]
  rfl

theorem Presented.verdict {kid : Option String} (hlib : lib.Documented)
    (r : Presented lib own file token audience h p s header claims kid id jwks)
    (hvalid : lib.claimsValid claims
      (verifyOptions (expectedAudience own audience) (effectiveLeeway leeway)) now = true)
    (key : PublicKey) :
    Scan.Verdict
      (tryCandidate lib token
        (verifyOptions (expectedAudience own audience) (effectiveLeeway leeway)) now id)
      (fun result => result.isOk = true)
      (fun key => lib.verifies key (signingInput h p) s = true) (fun _ => False) key := by
  have hmem : algorithm ∈
      (verifyOptions (expectedAudience own audience) (effectiveLeeway leeway)).validMethods :=
    List.mem_singleton_self _
  cases hv : lib.verifies key (signingInput h p) s with
  | true =>
    have hd := hlib.parse_complete token key _ now h p s header claims r.reads r.alg hmem hv hvalid
    exact .accepted (.ok ⟨id, .obj claims⟩) hv not_false (by simp only [tryCandidate, hd]) rfl
  | false =>
    obtain ⟨text, hd, htext⟩ := hlib.parse_badSignature token key _ now h p s header claims r.reads
      r.alg hmem hv
    exact .passed (by simp [hv]) not_false ⟨text, by simp only [tryCandidate, hd, htext, if_true]⟩

theorem Ready.verdict (hlib : lib.Documented)
    (r : Ready lib own file now token audience leeway h p s header claims kid id jwks)
    (key : PublicKey) :
    Scan.Verdict
      (tryCandidate lib token
        (verifyOptions (expectedAudience own audience) (effectiveLeeway leeway)) now id)
      (fun result => result.isOk = true)
      (fun key => lib.verifies key (signingInput h p) s = true) (fun _ => False) key :=
  r.presented.verdict hlib r.valid key

theorem exists_candidate {good : PublicKey → Prop} (hkidNe : kid ≠ "")
    (hgood : (∃ jwk ∈ jwks, ∃ key, loadKey jwk = some (kid, key) ∧ good key) ∨
      ((∀ jwk ∈ jwks, ¬ Carries kid jwk) ∧
        ∃ jwk ∈ jwks, ∃ k key, loadKey jwk = some (k, key) ∧ good key)) :
    ∃ key ∈ candidateKeys jwks kid, good key := by
  rw [exists_candidateKey_iff]
  rcases hgood with ⟨jwk, hjwk, key, hload, hg⟩ | ⟨hnone, jwk, hjwk, k, key, hload, hg⟩
  · have hall : (kid, key) ∈ jwks.filterMap loadKey := List.mem_filterMap.mpr ⟨jwk, hjwk, hload⟩
    exact ⟨⟨_, hall, hg⟩, Or.inr ⟨_, List.mem_filter.mpr ⟨hall, by simp [hkidNe]⟩, hg⟩⟩
  · refine ⟨⟨(k, key), List.mem_filterMap.mpr ⟨jwk, hjwk, hload⟩, hg⟩, Or.inl ?_⟩
    refine List.filter_eq_nil_iff.mpr fun m hm hk => ?_
    obtain ⟨j, hj, hl⟩ := List.mem_filterMap.mp hm
    obtain ⟨dec, hdec, hmap⟩ := Option.bind_eq_some_iff.mp hl
    obtain ⟨key', -, rfl⟩ := Option.map_eq_some_iff.mp hmap
    exact hnone j hj ⟨dec, hdec, (of_decide_eq_true hk).2⟩

/-- A usable key of the list is always accepted. -/
theorem Ready.isOk (hlib : lib.Documented)
    (r : Ready lib own file now token audience leeway h p s header claims kid id jwks)
    (hkidNe : kid ≠ "") (husable : Usable lib (signingInput h p) s kid jwks) :
    (verify lib own file now token audience leeway).isOk = true := by
  have hacc : ∃ key ∈ candidateKeys jwks kid, lib.verifies key (signingInput h p) s = true := by
    refine exists_candidate hkidNe ?_
    rcases husable with ⟨jwk, hjwk, ⟨j, hj, rfl⟩, k, key, hload, hv⟩ | ⟨hnone, jwk, hjwk, k, key, hload, hv⟩
    · refine Or.inl ⟨jwk, hjwk, key, ?_, hv⟩
      obtain ⟨j', hj', hmap⟩ := Option.bind_eq_some_iff.mp hload
      rw [hj] at hj'
      cases hj'
      obtain ⟨key', hkey', he⟩ := Option.map_eq_some_iff.mp hmap
      cases he
      exact hload
    · exact Or.inr ⟨hnone, jwk, hjwk, k, key, hload, hv⟩
  obtain ⟨key, hkey, hv⟩ := hacc
  rw [r.verify_eq hlib (List.ne_nil_of_mem hkey), tryCandidates]
  exact (Scan.scan_ok_iff _ _ (r.verdict hlib) "" _ ⟨key, hkey, hv⟩).mpr
    fun _ _ _ _ _ hf => hf

end

end Go

namespace Sample

/-- PyJWT refuses a JWK without coordinates with `InvalidKeyError`. -/
def strictFromDict (ms : Members) : Except Py.LibExn Unit :=
  if (Members.get? ms "x").isSome then .ok ()
  else .error (.pyJwt ⟨.other, "Invalid key parameters"⟩)

def incompleteJwk : Members := [("kty", .str "EC"), ("crv", .str "P-256"), ("kid", .str "k1")]

theorem sender_ok : Go.parseSpiffeID sender.toString = .ok sender := rfl

theorem readBack_sender (jwks : List Json) (hne : jwks ≠ []) :
    readBack "a.b" (AList.singleton "spiffe://a.b/x" jwks) sender.toString = some jwks := by
  have hlookup : (AList.singleton "spiffe://a.b/x" jwks : Identities).lookup sender.toString =
      some jwks := by
    rw [show sender.toString = "spiffe://a.b/x" from by decide]
    simp [AList.lookup]
  have hdomain : inTrustDomain "a.b" sender.toString = true := by
    simp only [inTrustDomain, sender_ok]
    decide
  have hkept : (!jwks.isEmpty) = true := by simpa using hne
  rw [readBack, if_pos hdomain, hlookup, Option.filter_some, if_pos hkept]

theorem py_bound (jwks : List Json) (hne : jwks ≠ []) :
    ∃ b, Py.readBundle (bundleOf jwks) = .ok b ∧
      b.identities.lookup sender.toString = some jwks := by
  obtain ⟨b, hb, -, hl⟩ := py_fromDict_document "a.b" (AList.singleton "spiffe://a.b/x" jwks)
  exact ⟨b, hb, (hl _).trans (readBack_sender jwks hne)⟩

theorem ts_bound (jwks : List Json) (hne : jwks ≠ []) :
    ∃ b, Ts.sourceGet (bundleOf jwks) = .ok b ∧
      b.identities.lookup sender.toString = some jwks := by
  obtain ⟨b, hb, -, hl⟩ := ts_fromDocument_document "a.b" (AList.singleton "spiffe://a.b/x" jwks)
  exact ⟨b, hb, (hl _).trans (readBack_sender jwks hne)⟩

theorem py_ready (fromDict : Members → Except Py.LibExn Unit) (jwks : List Json) (hne : jwks ≠ []) :
    Py.Ready (pyJwtWith fromDict) receiver (bundleOf jwks) 1010 token none 30 headerText payloadText
      "c2ln" header claims "k1" sender jwks where
  reads := ⟨segments_token, segment_header, segment_payload⟩
  alg := by simp [header, Members.get?, algorithm]
  kid_eq := by simp [header, Members.get?]
  sub := by simp [claims, Members.get?, show sender.toString = "spiffe://a.b/x" from by decide]
  id_ok := sender_ok
  aud := by simp [claims, Members.get?, Py.expectedAudience,
    show receiver.toString = "spiffe://a.b/y" from by decide]
  valid := by
    change Py.referenceValid claims _ 1010 = true
    decide +kernel
  bound := py_bound jwks hne

theorem ts_ready (jwks : List Json) (hne : jwks ≠ []) :
    Ts.Ready node receiver (bundleOf jwks) 1010 token none 30 headerText payloadText
      "c2ln" header claims "k1" sender jwks where
  segs := segments_token
  header_ok := segment_header
  claims_ok := segment_payload
  alg := by simp [header, Members.get?, algorithm]
  kid_eq := by simp [header, Members.get?]
  sub := by simp [claims, Members.get?, show sender.toString = "spiffe://a.b/x" from by decide]
  id_ok := sender_ok
  aud := by simp [claims, Members.get?, Ts.expectedAudience,
    show receiver.toString = "spiffe://a.b/y" from by decide]
  exp := by
    have hexp : Members.get? claims "exp" = some (.int 1060) := by simp [claims, Members.get?]
    simp only [hexp, Ts.checkExp, Option.bind_some, Json.num?]
    norm_num
  iat := by
    have hiat : Members.get? claims "iat" = some (.int 1000) := by simp [claims, Members.get?]
    simp only [hiat, Ts.checkIat, Option.bind_some, Json.num?]
    norm_num
  bound := ts_bound jwks hne

theorem go_ready (jwks : List Json) (hne : jwks ≠ []) :
    Go.Ready goJwt receiver (bundleOf jwks) 1010 token "" 30 headerText payloadText
      "c2ln" header claims "k1" sender jwks where
  reads := goJwt_reads
  alg := by simp [header, Members.get?, algorithm]
  kid_eq := by simp [header, Members.get?]
  sub := by simp [claims, Members.get?, show sender.toString = "spiffe://a.b/x" from by decide]
  id_ok := sender_ok
  aud := by simp [claims, Members.get?, Go.expectedAudience,
    show receiver.toString = "spiffe://a.b/y" from by decide]
  valid := by decide +kernel
  bound := by
    obtain ⟨b, ws, hb, -, hl⟩ := go_parseBundle_document "a.b" (AList.singleton "spiffe://a.b/x" jwks)
    refine ⟨b, ?_, (hl _).trans (readBack_sender jwks hne)⟩
    simp only [Go.readBundle, bundleOf, hb, Except.map]

theorem py_accepts (fromDict : Members → Except Py.LibExn Unit) (hload : fromDict jwk = .ok ()) :
    Py.Accepts (pyJwtWith fromDict) (signingInput headerText payloadText) "c2ln" jwk :=
  ⟨(), hload, rfl, by simp [pyJwtWith, Py.PyJwt.reference]⟩

theorem ts_verifiesUnder :
    Ts.VerifiesUnder node (.obj jwk) (signingInput headerText payloadText) "c2ln" :=
  ⟨(), rfl, by simp [node]⟩

end Sample

end Spiffile
