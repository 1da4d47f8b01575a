import Spiffile.Mint

/-!
# What decides a call

Once a token is in order up to its times and its signature, the answer of each
verifier is the conjunction of two tests: the claims pass the time checks, and
the loop over the candidate keys reaches one that verifies. The second test is
compared here: which of the bound keys the three implementations try.
-/

namespace Spiffile

theorem not_isOk_error {ε α : Type} (e : ε) : ¬ (Except.error e : Except ε α).isOk = true := by
  simp [Except.isOk, Except.toBool]

namespace Py

/-- The loop reaches a candidate that verifies. -/
def Finds (lib : PyJwt) (input signatureText : String) (kid : Option String) (jwks : List Json) :
    Prop :=
  ∃ cs, candidates jwks (kid.map .str) = .ok cs ∧
    Scan.Reaches (Accepts lib input signatureText) (Poisons lib) cs

theorem Presented.isOk_iff {lib : PyJwt} {own : SpiffeId} {file : BundleFile} {now : ℚ}
    {token : String} {audience : Option String} {leeway : ℚ} {h p s : String}
    {header claims : Members} {kid : Option String} {id : SpiffeId} {jwks : List Json}
    (hlib : lib.Documented)
    (r : Presented lib own file token audience h p s header claims kid id jwks) :
    (verify lib own file now token audience leeway).isOk = true ↔
      lib.claimsValid claims (verifyOptions (expectedAudience own audience) leeway) now = true ∧
        Finds lib (signingInput h p) s kid jwks := by
  rw [r.verify_eq]
  cases hvalid : lib.claimsValid claims (verifyOptions (expectedAudience own audience) leeway) now with
  | true =>
    have hiff := Scan.scan_ok_iff_reaches
      (tryCandidate lib token (verifyOptions (expectedAudience own audience) leeway) now id)
      (fun lastError => .error (.invalidToken (.noMatch id.toString lastError)))
      (r.verdict hlib hvalid) (fun _ => not_isOk_error _) none
    unfold Finds
    cases hcs : candidates jwks (kid.map .str) with
    | error e => simp [not_isOk_error]
    | ok cs => simpa [tryCandidates] using hiff cs
  | false =>
    simp only [Bool.false_eq_true, false_and, iff_false]
    intro hok
    obtain ⟨caller, hc⟩ := exists_of_isOk hok
    obtain ⟨cs, -, hloop⟩ := bind_eq_ok hc
    -- an accepted token has passed `decode`, which checks the same claims
    obtain ⟨ms, -, key, claims', -, hdec, -⟩ := tryCandidates_eq_ok hloop
    obtain ⟨h', p', s', header', alg, hreads, -, -, -, hval⟩ := hlib.decode_ok _ _ _ _ _ hdec
    have hseg := hreads.1
    rw [r.reads.1] at hseg
    cases hseg
    have hpay := hreads.2.2
    rw [r.reads.2.2] at hpay
    cases hpay
    rw [hvalid] at hval
    cases hval

end Py

namespace Ts

/-- The loop reaches a candidate that verifies. -/
def Finds (node : Node) (input signatureText : String) (kid : Option String) (jwks : List Json) :
    Prop :=
  ∃ cs, candidates jwks (kid.map .str) = .ok cs ∧
    Scan.Reaches (fun jwk => VerifiesUnder node jwk input signatureText)
      (Throws node input signatureText) cs

theorem Presented.isOk_iff {node : Node} {own : SpiffeId} {file : BundleFile} {now : ℚ}
    {token : String} {audience : Option String} {leeway : ℚ} {h p s : String}
    {header claims : Members} {kid : Option String} {id : SpiffeId} {jwks : List Json}
    (r : Presented node own file token audience h p s header claims kid id jwks) :
    (verify node own file now token audience leeway).isOk = true ↔
      (checkExp (Members.get? claims "exp") leeway now = .ok () ∧
        checkIat (Members.get? claims "iat") leeway now = .ok ()) ∧
        Finds node (signingInput h p) s kid jwks := by
  rw [r.verify_eq]
  cases hexp : checkExp (Members.get? claims "exp") leeway now with
  | error e => simp [not_isOk_error]
  | ok _ =>
    cases hiat : checkIat (Members.get? claims "iat") leeway now with
    | error e => simp [not_isOk_error]
    | ok _ =>
      have hiff := Scan.scan_ok_iff_reaches
        (tryCandidate node (signingInput h p) s id (.obj claims))
        (fun _ => .error (.invalidToken (.noMatch id.toString)))
        (verdict (signingInput h p) s (.obj claims)) (fun _ => not_isOk_error _) ()
      unfold Finds
      cases hcs : candidates jwks (kid.map .str) with
      | error e => simp [not_isOk_error]
      | ok cs => simpa [tryCandidates] using hiff cs

end Ts

namespace Go

/-- A candidate verifies. -/
def Finds (lib : GoJwt) (input signatureText : String) (kid : Option String) (jwks : List Json) :
    Prop :=
  ∃ key ∈ candidateKeys jwks (kid.getD ""), lib.verifies key input signatureText = true

theorem Presented.isOk_iff {lib : GoJwt} {own : SpiffeId} {file : BundleFile} {now : ℚ}
    {token : String} {audience : String} {leeway : ℚ} {h p s : String}
    {header claims : Members} {kid : Option String} {id : SpiffeId} {jwks : List Json}
    (hlib : lib.Documented)
    (r : Presented lib own file token audience h p s header claims kid id jwks) :
    (verify lib own file now token audience leeway).isOk = true ↔
      lib.claimsValid claims
          (verifyOptions (expectedAudience own audience) (effectiveLeeway leeway)) now = true ∧
        Finds lib (signingInput h p) s kid jwks := by
  rw [r.verify_eq hlib]
  cases hvalid : lib.claimsValid claims
      (verifyOptions (expectedAudience own audience) (effectiveLeeway leeway)) now with
  | true =>
    have hiff := Scan.scan_ok_iff_reaches
      (tryCandidate lib token
        (verifyOptions (expectedAudience own audience) (effectiveLeeway leeway)) now id)
      (fun lastErr => .error (.noMatch id.toString lastErr))
      (r.verdict hlib hvalid) (fun _ => not_isOk_error _) "" (candidateKeys jwks (kid.getD ""))
    rw [Scan.reaches_iff] at hiff
    have hclean : Scan.Clean (fun key => lib.verifies key (signingInput h p) s = true)
        (fun _ => False) (candidateKeys jwks (kid.getD "")) := fun _ _ _ _ _ hf => hf
    unfold Finds
    cases hempty : (candidateKeys jwks (kid.getD "")).isEmpty with
    | true =>
      rw [List.isEmpty_iff] at hempty
      simp [hempty, not_isOk_error]
    | false => simpa [tryCandidates, hclean] using hiff
  | false =>
    simp only [Bool.false_eq_true, false_and, iff_false]
    intro hok
    obtain ⟨caller, hc⟩ := exists_of_isOk hok
    obtain ⟨-, -, hloop⟩ := bind_eq_ok hc
    obtain ⟨key, -, claims', hparse, -⟩ := tryCandidates_eq_ok hloop
    obtain ⟨h', p', s', header', alg, hreads, -, -, -, hval⟩ := hlib.parse_ok _ _ _ _ _ hparse
    have hseg := hreads.1
    rw [r.reads.1] at hseg
    cases hseg
    have hpay := hreads.2.2
    rw [r.reads.2.2] at hpay
    cases hpay
    rw [hvalid] at hval
    cases hval

end Go

/-! ### One token before three verifiers -/

/-- The call returns a caller. Go's empty audience stands for the default one. -/
def Impl.accepts (libs : Libs) (own : SpiffeId) (file : BundleFile) (now : ℚ) (token : String)
    (audience : Option String) (leeway : ℚ) : Impl → Bool
  | .python => (Py.verify libs.py own file now token audience leeway).isOk
  | .typescript => (Ts.verify libs.node own file now token audience leeway).isOk
  | .go => (Go.verify libs.go own file now token (audience.getD "") leeway).isOk

/-- The token is in order for each of the three, up to its signature and its
times, and each finds `jwks` bound to its `sub`. -/
structure Presented (libs : Libs) (own : SpiffeId) (file : BundleFile) (token : String)
    (audience : Option String) (h p s : String) (header claims : Members) (kid : Option String)
    (id : SpiffeId) (jwks : List Json) : Prop where
  py : Py.Presented libs.py own file token audience h p s header claims kid id jwks
  ts : Ts.Presented libs.node own file token audience h p s header claims kid id jwks
  go : Go.Presented libs.go own file token (audience.getD "") h p s header claims kid id jwks

/-- The time checks of an implementation pass. -/
def Impl.timely (libs : Libs) (own : SpiffeId) (now : ℚ) (audience : Option String) (leeway : ℚ)
    (claims : Members) : Impl → Prop
  | .python => libs.py.claimsValid claims
      (Py.verifyOptions (Py.expectedAudience own audience) leeway) now = true
  | .typescript => Ts.checkExp (Members.get? claims "exp") leeway now = .ok () ∧
      Ts.checkIat (Members.get? claims "iat") leeway now = .ok ()
  | .go => libs.go.claimsValid claims
      (Go.verifyOptions (Go.expectedAudience own (audience.getD "")) (Go.effectiveLeeway leeway))
        now = true

/-- The loop of an implementation reaches a key that verifies. -/
def Impl.finds (libs : Libs) (input signatureText : String) (kid : Option String)
    (jwks : List Json) : Impl → Prop
  | .python => Py.Finds libs.py input signatureText kid jwks
  | .typescript => Ts.Finds libs.node input signatureText kid jwks
  | .go => Go.Finds libs.go input signatureText kid jwks

theorem Presented.accepts_iff {libs : Libs} (hpy : libs.py.Documented) (hgo : libs.go.Documented)
    {own : SpiffeId} {file : BundleFile} {token : String} {audience : Option String}
    {h p s : String} {header claims : Members} {kid : Option String} {id : SpiffeId}
    {jwks : List Json}
    (r : Presented libs own file token audience h p s header claims kid id jwks) (now leeway : ℚ)
    (impl : Impl) :
    impl.accepts libs own file now token audience leeway = true ↔
      impl.timely libs own now audience leeway claims ∧
        impl.finds libs (signingInput h p) s kid jwks := by
  cases impl with
  | python => exact r.py.isOk_iff hpy
  | typescript => exact r.ts.isOk_iff
  | go => exact r.go.isOk_iff hgo

/-! ### The keys that are tried -/

/-- The `kid` of a JWK, where it is a string. -/
def textKid (ms : Members) : Option String :=
  match Members.get? ms "kid" with
  | some (.str kid) => some kid
  | _ => none

/-- The JWK is without a `kid`, or its `kid` is a string. -/
def KidText (ms : Members) : Prop := Members.get? ms "kid" = (textKid ms).map .str

/-- The `kid` of the JWK is the header's; where the header has none, the JWK
has none either. -/
def carries (kid : Option String) (ms : Members) : Bool := decide (textKid ms = kid)

/-- The JWK loads in Go with the header's `kid`, which is not empty. -/
def Go.carries (kid : Option String) (ms : Members) : Bool :=
  (Go.loadKey (.obj ms)).any fun k => decide (kid.getD "" ≠ "" ∧ k.1 = kid.getD "")

theorem pyGetEq_kid (kid : Option String) (ms : Members) (h : KidText ms) :
    Json.pyGetEq (Members.get? ms "kid") (kid.map .str) = carries kid ms := by
  rw [h, carries]
  cases textKid ms with
  | none => cases kid <;> rfl
  | some k =>
    cases kid with
    | none => rfl
    | some kid =>
      rw [Bool.eq_iff_iff, Option.map_some, Option.map_some, Json.pyGetEq_str]
      simp

theorem jsStrictEq_kid (kid : Option String) (ms : Members) (h : KidText ms) :
    Json.jsStrictEq ((Json.jsProp? (.obj ms) "kid").getD none) (kid.map .str) = carries kid ms := by
  rw [Json.jsProp?, Option.getD_some, h, carries]
  cases textKid ms with
  | none => cases kid <;> rfl
  | some k =>
    cases kid with
    | none => rfl
    | some kid =>
      rw [Bool.eq_iff_iff, Option.map_some, Option.map_some, Json.jsStrictEq_str]
      simp

theorem Py.asDicts_map (dicts : List Members) : Py.asDicts (dicts.map .obj) = some dicts := by
  induction dicts with
  | nil => rfl
  | cons ms dicts ih => simp only [List.map_cons, Py.asDicts, ih, Option.map_some]

theorem Py.candidates_eq (kid : Option String) (dicts : List Members)
    (hkid : ∀ ms ∈ dicts, KidText ms) :
    Py.candidates (dicts.map .obj) (kid.map .str) = .ok (Scan.fallback (Spiffile.carries kid) dicts) := by
  rw [← Scan.fallback_congr dicts fun ms hms => pyGetEq_kid kid ms (hkid ms hms)]
  simp only [Py.candidates, Py.asDicts_map, Scan.fallback]

theorem Ts.candidates_eq (kid : Option String) (dicts : List Members)
    (hkid : ∀ ms ∈ dicts, KidText ms) :
    Ts.candidates (dicts.map .obj) (kid.map .str) =
      .ok ((Scan.fallback (Spiffile.carries kid) dicts).map .obj) := by
  have hnull : ∀ jwk ∈ dicts.map Json.obj, jwk ≠ .null := by
    intro jwk hjwk
    obtain ⟨ms, -, rfl⟩ := List.mem_map.mp hjwk
    simp
  obtain ⟨cs, hcs⟩ := (Ts.candidates_isOk_iff _ (kid.map .str)).mpr hnull
  rw [hcs, Ts.candidates_eq_ok hcs, ← Scan.fallback_congr dicts fun ms hms =>
    jsStrictEq_kid kid ms (hkid ms hms)]
  exact congrArg Except.ok (Scan.fallback_map Json.obj (fun jwk =>
    Json.jsStrictEq ((Json.jsProp? jwk "kid").getD none) (kid.map .str)) dicts)

/-- The signature verifies under the JWK `ms`, and on this the three agree. -/
structure Assigned (libs : Libs) (input signatureText : String) (good : Members → Prop)
    (ms : Members) : Prop where
  py : Py.Accepts libs.py input signatureText ms ↔ good ms
  ts : Ts.VerifiesUnder libs.node (.obj ms) input signatureText ↔ good ms
  go : Go.VerifiesUnder libs.go (.obj ms) input signatureText ↔ good ms

section
variable {libs : Libs} {input signatureText : String} {good : Members → Prop} {kid : Option String}
  {dicts : List Members}

theorem Py.finds_iff (hkid : ∀ ms ∈ dicts, KidText ms)
    (hgood : ∀ ms ∈ dicts, Assigned libs input signatureText good ms) :
    Py.Finds libs.py input signatureText kid (dicts.map .obj) ↔
      ((∃ ms ∈ dicts, good ms) ∧ Scan.Settled good (dicts.filter (Spiffile.carries kid))) ∧
        Scan.Clean good (Py.Poisons libs.py) (Scan.fallback (Spiffile.carries kid) dicts) := by
  have hsub : ∀ ms ∈ Scan.fallback (Spiffile.carries kid) dicts,
      Py.Accepts libs.py input signatureText ms ↔ good ms := by
    intro ms hms
    exact (hgood ms (Scan.mem_of_mem_fallback hms)).py
  unfold Py.Finds
  rw [Py.candidates_eq kid dicts hkid, ← Scan.exists_mem_fallback_iff, ← Scan.clean_congr _ hsub]
  simp only [Except.ok.injEq, exists_eq_left', Scan.reaches_iff, and_congr_left_iff]
  intro _
  exact exists_congr fun ms => and_congr_right fun hms => hsub ms hms

theorem Ts.finds_iff (hkid : ∀ ms ∈ dicts, KidText ms)
    (hgood : ∀ ms ∈ dicts, Assigned libs input signatureText good ms) :
    Ts.Finds libs.node input signatureText kid (dicts.map .obj) ↔
      ((∃ ms ∈ dicts, good ms) ∧ Scan.Settled good (dicts.filter (Spiffile.carries kid))) ∧
        Scan.Clean good (fun ms => Ts.Throws libs.node input signatureText (.obj ms))
          (Scan.fallback (Spiffile.carries kid) dicts) := by
  have hsub : ∀ ms ∈ Scan.fallback (Spiffile.carries kid) dicts,
      Ts.VerifiesUnder libs.node (.obj ms) input signatureText ↔ good ms := by
    intro ms hms
    exact (hgood ms (Scan.mem_of_mem_fallback hms)).ts
  unfold Ts.Finds
  rw [Ts.candidates_eq kid dicts hkid, ← Scan.exists_mem_fallback_iff, ← Scan.clean_congr _ hsub]
  simp only [Except.ok.injEq, exists_eq_left', Scan.reaches_iff, Scan.clean_map,
    and_congr_left_iff, List.mem_map, exists_exists_and_eq_and]
  intro _
  exact exists_congr fun ms => and_congr_right fun hms => hsub ms hms

theorem Go.finds_iff (hgood : ∀ ms ∈ dicts, Assigned libs input signatureText good ms) :
    Go.Finds libs.go input signatureText kid (dicts.map .obj) ↔
      (∃ ms ∈ dicts, good ms) ∧ Scan.Settled good (dicts.filter (Go.carries kid)) := by
  have hone : ∀ p : String × Go.PublicKey → Bool,
      (∃ k ∈ ((dicts.map Json.obj).filterMap Go.loadKey).filter p,
        libs.go.verifies k.2 input signatureText = true) ↔
      ∃ ms ∈ dicts.filter fun ms => (Go.loadKey (.obj ms)).any p, good ms := by
    intro p
    constructor
    · intro h
      obtain ⟨k, hk, hv⟩ := h
      obtain ⟨hk, hp⟩ := List.mem_filter.mp hk
      obtain ⟨jwk, hjwk, hload⟩ := List.mem_filterMap.mp hk
      obtain ⟨ms, hms, rfl⟩ := List.mem_map.mp hjwk
      exact ⟨ms, List.mem_filter.mpr ⟨hms, by simp [hload, hp]⟩,
        (hgood ms hms).go.mp ⟨k.1, k.2, hload, hv⟩⟩
    · intro h
      obtain ⟨ms, hms, hg⟩ := h
      obtain ⟨hms, hp⟩ := List.mem_filter.mp hms
      obtain ⟨k, key, hload, hv⟩ := (hgood ms hms).go.mpr hg
      rw [hload, Option.any_some] at hp
      exact ⟨(k, key), List.mem_filter.mpr
        ⟨List.mem_filterMap.mpr ⟨_, List.mem_map_of_mem hms, hload⟩, hp⟩, hv⟩
  have hall := hone fun _ => true
  have hload : ∀ ms ∈ dicts, good ms → (Go.loadKey (.obj ms)).isSome = true := by
    intro ms hms hg
    obtain ⟨k, key, hload, -⟩ := (hgood ms hms).go.mpr hg
    rw [hload, Option.isSome_some]
  have hempty : ((dicts.map Json.obj).filterMap Go.loadKey).filter
        (fun k => decide (kid.getD "" ≠ "" ∧ k.1 = kid.getD "")) = [] ↔
      dicts.filter (Go.carries kid) = [] := by
    simp only [List.filter_eq_nil_iff, List.mem_filterMap, List.mem_map]
    constructor
    · intro h ms hms hc
      obtain ⟨k, hk, hp⟩ := (Option.any_eq_true _ _).mp hc
      exact h k ⟨_, ⟨ms, hms, rfl⟩, hk⟩ hp
    · intro h k hk hp
      obtain ⟨jwk, ⟨ms, hms, rfl⟩, hload⟩ := hk
      exact h ms hms ((Option.any_eq_true _ _).mpr ⟨k, hload, hp⟩)
  unfold Go.Finds
  rw [Go.exists_candidateKey_iff]
  unfold Scan.Settled
  rw [hempty, hone]
  refine and_congr ?_ Iff.rfl
  simp only [List.filter_true, Option.any_true, List.mem_filter] at hall
  rw [hall]
  constructor
  · intro h
    obtain ⟨ms, hms, hg⟩ := h
    exact ⟨ms, hms.1, hg⟩
  · intro h
    obtain ⟨ms, hms, hg⟩ := h
    exact ⟨ms, ⟨hms, hload ms hms hg⟩, hg⟩

end

/-- No key verifies; or by its kid each implementation chooses nothing or a key
that verifies, and nothing stops a loop before that key; or none of the three
comes to a key that verifies. -/
def SelectionAgrees (libs : Libs) (input signatureText : String) (good : Members → Prop)
    (kid : Option String) (dicts : List Members) : Prop :=
  let clean (spoils : Members → Prop) :=
    Scan.Clean good spoils (Scan.fallback (carries kid) dicts)
  let cleanPy := clean (Py.Poisons libs.py)
  let cleanTs := clean fun ms => Ts.Throws libs.node input signatureText (.obj ms)
  let settled := Scan.Settled good (dicts.filter (carries kid))
  let settledGo := Scan.Settled good (dicts.filter (Go.carries kid))
  (∀ ms ∈ dicts, ¬ good ms) ∨ (settledGo ∧ settled ∧ cleanPy ∧ cleanTs) ∨
    (¬ settledGo ∧ (settled → ¬ cleanPy ∧ ¬ cleanTs))

theorem answers_agree_iff (some settled settledGo cleanPy cleanTs : Prop) :
    (((some ∧ settled) ∧ cleanPy ↔ (some ∧ settled) ∧ cleanTs) ∧
        ((some ∧ settled) ∧ cleanTs ↔ some ∧ settledGo)) ↔
      ¬ some ∨ (settledGo ∧ settled ∧ cleanPy ∧ cleanTs) ∨
        (¬ settledGo ∧ (settled → ¬ cleanPy ∧ ¬ cleanTs)) := by
  by_cases hsome : some <;> by_cases hsettled : settled <;> by_cases hgo : settledGo <;>
    by_cases hpy : cleanPy <;> by_cases hts : cleanTs <;> simp [*]

namespace Sample

/-- A JWK for an algorithm nobody has. -/
def retiredJwk : Members := [("kty", .str "EC"), ("alg", .str "ES999"), ("kid", .str "k1")]

/-- The key of the token, bound under another kid. -/
def renamedJwk : Members :=
  [("kty", .str "EC"), ("crv", .str "P-256"), ("x", .str "AQ"), ("y", .str "Ag"), ("kid", .str "k2")]

def pickyFromDict (ms : Members) : Except Py.LibExn Unit :=
  if (Members.get? ms "x").isSome then .ok ()
  else .error (.pyJwt ⟨.pyJwk, "Unable to find an algorithm for key"⟩)

/-- Libraries that load no JWK without coordinates. -/
def pickyLibs : Libs where
  py := pyJwtWith pickyFromDict
  node := { node with createPublicKey := fun _ _ x _ => if x.isSome then some () else none }
  go := goJwt
  table := fun _ => false
  sha256 := baseDigest

theorem picky_presented (jwks : List Json) (hne : jwks ≠ []) :
    Presented pickyLibs receiver (bundleOf jwks) token none headerText payloadText "c2ln" header
      claims (some "k1") sender jwks := by
  have hts := (ts_ready jwks hne).presented
  exact ⟨(py_ready pickyFromDict jwks hne).presented (pyJwtWith_documented _),
    ⟨hts.segs, hts.header_ok, hts.claims_ok, hts.alg, hts.kid_eq, hts.sub, hts.id_ok, hts.aud,
      hts.bound⟩, (go_ready jwks hne).presented⟩

theorem picky_timely (impl : Impl) : impl.timely pickyLibs receiver 1010 none 30 claims := by
  cases impl with
  | python => exact (py_ready pickyFromDict [.null] (by simp)).valid
  | typescript => exact ⟨(ts_ready [.null] (by simp)).exp, (ts_ready [.null] (by simp)).iat⟩
  | go => exact (go_ready [.null] (by simp)).valid

theorem picky_retired (good : Members → Prop) (h : ¬ good retiredJwk) :
    Assigned pickyLibs (signingInput headerText payloadText) "c2ln" good retiredJwk := by
  have hpy : pickyFromDict retiredJwk =
      .error (.pyJwt ⟨.pyJwk, "Unable to find an algorithm for key"⟩) := by
    simp [pickyFromDict, retiredJwk, Members.get?]
  have hts : Ts.loadKey pickyLibs.node (.obj retiredJwk) = none := rfl
  have hgo : Go.loadKey (.obj retiredJwk) = none := rfl
  constructor
  · refine iff_of_false ?_ h
    intro hacc
    obtain ⟨key, hload, -⟩ := hacc
    rw [show pickyLibs.py.fromDict retiredJwk = _ from hpy] at hload
    cases hload
  · refine iff_of_false ?_ h
    intro hacc
    obtain ⟨key, hload, -⟩ := hacc
    rw [hts] at hload
    cases hload
  · refine iff_of_false ?_ h
    intro hacc
    obtain ⟨k, key, hload, -⟩ := hacc
    rw [hgo] at hload
    cases hload

theorem picky_renamed (good : Members → Prop) (h : good renamedJwk) :
    Assigned pickyLibs (signingInput headerText payloadText) "c2ln" good renamedJwk := by
  have hpy : pickyFromDict renamedJwk = .ok () := by
    simp [pickyFromDict, renamedJwk, Members.get?]
  constructor
  · exact iff_of_true (py_accepts pickyFromDict hpy) h
  · exact iff_of_true ⟨(), rfl, by simp [pickyLibs, node]⟩ h
  · exact iff_of_true ⟨"k2", ⟨1, 2⟩, rfl, by decide +kernel⟩ h

end Sample

end Spiffile
