import Spiffile.Selection

/-!
# The life of a token

Each implementation tests the times of a token in its own way: PyJWT looks at
`exp`, `iat` and `nbf`, the TypeScript code at `exp` and `iat`, golang-jwt at
`exp` and `nbf`; and TypeScript alone still accepts a token at the moment
`exp + leeway`.
-/

namespace Spiffile

theorem Presented.audience_ne {libs : Libs} {own : SpiffeId} {file : BundleFile} {token : String}
    {audience : Option String} {h p s : String} {header claims : Members} {kid : Option String}
    {id : SpiffeId} {jwks : List Json}
    (r : Presented libs own file token audience h p s header claims kid id jwks) :
    Py.expectedAudience own audience ≠ "" ∧ Go.expectedAudience own (audience.getD "") ≠ "" := by
  have hown : own.toString ≠ "" := by
    intro he
    have hlen := congrArg String.length he
    simp [SpiffeId.toString, scheme] at hlen
  have hsame : Py.expectedAudience own audience = Go.expectedAudience own (audience.getD "") := by
    have haud := r.py.aud.symm.trans r.go.aud
    simpa using haud
  have hne : Go.expectedAudience own (audience.getD "") ≠ "" := by
    unfold Go.expectedAudience
    split_ifs with hempty
    · exact hown
    · exact hempty
  rw [hsame]
  exact ⟨hne, hne⟩

theorem Ts.checkExp_int (exp : ℤ) (leeway now : ℚ) :
    Ts.checkExp (some (.int exp)) leeway now = .ok () ↔ now ≤ exp + leeway := by
  by_cases h : (exp : ℚ) + leeway < now <;>
    simp [Ts.checkExp, Json.num?, ensure, h, not_le.mpr, le_of_not_gt]

theorem Ts.checkIat_int (iat : Option ℤ) (leeway now : ℚ) :
    Ts.checkIat (iat.map .int) leeway now = .ok () ↔ ∀ i ∈ iat, (i : ℚ) - leeway ≤ now := by
  cases iat with
  | none => simp [Ts.checkIat]
  | some i =>
    have hmem : (∀ j ∈ some i, (j : ℚ) - leeway ≤ now) ↔ (i : ℚ) - leeway ≤ now := by simp
    rw [hmem]
    by_cases h : (i : ℚ) - leeway ≤ now
    · simp [Ts.checkIat, Json.num?, not_lt.mpr h, h]
    · simp [Ts.checkIat, Json.num?, not_le.mp h, h]

/-- The times an implementation lets pass. -/
def Impl.window (exp : ℤ) (iat nbf : Option ℤ) (leeway now : ℚ) : Impl → Prop
  | .python => now < exp + leeway ∧ (∀ i ∈ iat, (i : ℚ) ≤ now + leeway) ∧
      ∀ n ∈ nbf, (n : ℚ) ≤ now + leeway
  | .typescript => now ≤ exp + leeway ∧ ∀ i ∈ iat, (i : ℚ) ≤ now + leeway
  | .go => now < exp + leeway ∧ ∀ n ∈ nbf, (n : ℚ) ≤ now + leeway

theorem Impl.timely_iff {libs : Libs} (hpy : libs.py.ChecksTimes) (hgo : libs.go.ChecksTimes)
    {own : SpiffeId} {file : BundleFile} {token : String} {audience : Option String}
    {h p s : String} {header claims : Members} {kid : Option String} {id : SpiffeId}
    {jwks : List Json}
    (r : Presented libs own file token audience h p s header claims kid id jwks)
    {exp : ℤ} {iat nbf : Option ℤ} (htimes : TimeClaims claims exp iat nbf) {leeway : ℚ}
    (hleeway : 0 < leeway) (now : ℚ) (impl : Impl) :
    impl.timely libs own now audience leeway claims ↔ impl.window exp iat nbf leeway now := by
  obtain ⟨hpyAud, hgoAud⟩ := r.audience_ne
  cases impl with
  | python =>
    have hiff := hpy claims (Py.verifyOptions (Py.expectedAudience own audience) leeway) now _ exp
      iat nbf r.py.sub r.py.aud hpyAud (by simp [Py.verifyOptions]) htimes
    simpa only [Impl.timely, Impl.window, Py.verifyOptions, sub_lt_iff_lt_add] using hiff
  | typescript =>
    simp only [Impl.timely, Impl.window, htimes.exp_eq, htimes.iat_eq, Ts.checkExp_int,
      Ts.checkIat_int, sub_le_iff_le_add]
  | go =>
    have heff : Go.effectiveLeeway leeway = leeway := if_neg (not_le.mpr hleeway)
    have hiff := hgo claims (Go.verifyOptions (Go.expectedAudience own (audience.getD "")) leeway)
      now _ exp iat nbf r.go.sub r.go.aud hgoAud htimes
    simpa only [Impl.timely, Impl.window, heff, Go.verifyOptions, sub_le_iff_le_add] using hiff

/-- What keeps the three windows apart does not happen: TypeScript's last
moment is not reached, or the token is from the future then; and before it
`iat` and `nbf` are in the future together. -/
structure WindowsAgree (exp : ℤ) (iat nbf : Option ℤ) (leeway now : ℚ) : Prop where
  last : now = exp + leeway → ∃ i ∈ iat, now + leeway < (i : ℚ)
  future : now < exp + leeway →
    ((∃ i ∈ iat, now + leeway < (i : ℚ)) ↔ ∃ n ∈ nbf, now + leeway < (n : ℚ))

/-- The three windows agree on a moment, and hold it only if the token has been
issued and has not expired, exactly under `WindowsAgree`. -/
theorem windows_iff (exp : ℤ) (iat nbf : Option ℤ) (leeway now : ℚ) :
    ((∀ impl impl' : Impl, impl.window exp iat nbf leeway now ↔ impl'.window exp iat nbf leeway now) ∧
      ∀ impl : Impl, impl.window exp iat nbf leeway now →
        (∀ i ∈ iat, (i : ℚ) - leeway ≤ now) ∧ now < exp + leeway) ↔
      WindowsAgree exp iat nbf leeway now := by
  have hiat : (∃ i ∈ iat, now + leeway < (i : ℚ)) ↔ ¬ ∀ i ∈ iat, (i : ℚ) ≤ now + leeway := by simp
  have hnbf : (∃ n ∈ nbf, now + leeway < (n : ℚ)) ↔ ¬ ∀ n ∈ nbf, (n : ℚ) ≤ now + leeway := by simp
  constructor
  · intro h
    obtain ⟨hsame, hlife⟩ := h
    have hpyGo := hsame .python .go
    have htsGo := hsame .typescript .go
    simp only [Impl.window] at hpyGo htsGo
    constructor
    · intro hlast
      rw [hiat]
      intro hissued
      have hgo := htsGo.mp ⟨le_of_eq hlast, hissued⟩
      exact absurd hlast (ne_of_lt hgo.1)
    · intro hlt
      rw [hiat, hnbf, not_iff_not]
      constructor
      · intro hissued
        exact (htsGo.mp ⟨le_of_lt hlt, hissued⟩).2
      · intro hstarted
        exact (htsGo.mpr ⟨hlt, hstarted⟩).2
  · intro hagree
    have hfuture := hagree.future
    rw [hiat, hnbf, not_iff_not] at hfuture
    have hlast := hagree.last
    rw [hiat] at hlast
    -- all three are the window of the profile
    have hwindow : ∀ impl : Impl, impl.window exp iat nbf leeway now ↔
        now < exp + leeway ∧ ∀ i ∈ iat, (i : ℚ) ≤ now + leeway := by
      intro impl
      cases impl with
      | python =>
        constructor
        · intro hw
          exact ⟨hw.1, hw.2.1⟩
        · intro hw
          exact ⟨hw.1, hw.2, (hfuture hw.1).mp hw.2⟩
      | typescript =>
        constructor
        · intro hw
          exact ⟨lt_of_le_of_ne hw.1 fun he => hlast he hw.2, hw.2⟩
        · intro hw
          exact ⟨le_of_lt hw.1, hw.2⟩
      | go =>
        constructor
        · intro hw
          exact ⟨hw.1, (hfuture hw.1).mpr hw.2⟩
        · intro hw
          exact ⟨hw.1, (hfuture hw.1).mp hw.2⟩
    constructor
    · intro impl impl'
      rw [hwindow impl, hwindow impl']
    · intro impl hw
      have hw' := (hwindow impl).mp hw
      simp only [sub_le_iff_le_add]
      exact ⟨hw'.2, hw'.1⟩

/-- A token that is in order but for its times gets one answer from the three
verifiers, and none accepts it from the future or expired, exactly when their
windows agree. -/
theorem same_window_iff (libs : Libs) (hpy : libs.py.Documented) (hgo : libs.go.Documented)
    (hpyTimes : libs.py.ChecksTimes) (hgoTimes : libs.go.ChecksTimes) (own : SpiffeId)
    (file : BundleFile) (now : ℚ) (token : String) (audience : Option String) (leeway : ℚ)
    (h p s : String) (header claims : Members) (kid : Option String) (id : SpiffeId)
    (jwks : List Json) (exp : ℤ) (iat nbf : Option ℤ)
    (hpresented : Presented libs own file token audience h p s header claims kid id jwks)
    (hfinds : ∀ impl : Impl, impl.finds libs (signingInput h p) s kid jwks)
    (htimes : TimeClaims claims exp iat nbf) (hleeway : 0 < leeway) :
    ((∀ impl impl' : Impl, impl.accepts libs own file now token audience leeway =
        impl'.accepts libs own file now token audience leeway) ∧
      ∀ impl : Impl, impl.accepts libs own file now token audience leeway = true →
        (∀ i ∈ iat, (i : ℚ) - leeway ≤ now) ∧ now < exp + leeway) ↔
      WindowsAgree exp iat nbf leeway now := by
  have haccepts : ∀ impl : Impl, impl.accepts libs own file now token audience leeway = true ↔
      impl.window exp iat nbf leeway now := by
    intro impl
    rw [hpresented.accepts_iff hpy hgo, and_iff_left (hfinds impl)]
    exact Impl.timely_iff hpyTimes hgoTimes hpresented htimes hleeway now impl
  rw [← windows_iff]
  simp only [Bool.eq_iff_iff, haccepts]

/-! ### A token from the future -/

namespace Sample

theorem times : TimeClaims claims 1060 (some 1000) none := by
  constructor <;> simp [claims, Members.get?]

theorem picky_finds (impl : Impl) :
    impl.finds pickyLibs (signingInput headerText payloadText) "c2ln" (some "k1") [.obj jwk] := by
  have hone := picky_presented [.obj jwk] (by simp)
  have haccepts : impl.accepts pickyLibs receiver (bundleOf [.obj jwk]) 1010 token none 30 = true := by
    cases impl <;> decide +kernel
  exact ((hone.accepts_iff (pyJwtWith_documented _) goJwt_documented 1010 30 impl).mp haccepts).2

end Sample

theorem same_window_iff_sample :
    ((∀ impl impl' : Impl,
        impl.accepts Sample.pickyLibs Sample.receiver (Sample.bundleOf [.obj Sample.jwk]) 1010
            Sample.token none 30 =
          impl'.accepts Sample.pickyLibs Sample.receiver (Sample.bundleOf [.obj Sample.jwk]) 1010
            Sample.token none 30) ∧
      ∀ impl : Impl, impl.accepts Sample.pickyLibs Sample.receiver
          (Sample.bundleOf [.obj Sample.jwk]) 1010 Sample.token none 30 = true →
        (∀ i ∈ some (1000 : ℤ), (i : ℚ) - 30 ≤ 1010) ∧ (1010 : ℚ) < (1060 : ℤ) + 30) ↔
      WindowsAgree 1060 (some 1000) none 30 1010 :=
  same_window_iff Sample.pickyLibs (Sample.pyJwtWith_documented _) Sample.goJwt_documented
    (Py.PyJwt.reference_checksTimes _ _ _ _ _ _) (Go.GoJwt.reference_checksTimes _ _ _) Sample.receiver
    (Sample.bundleOf [.obj Sample.jwk]) 1010 Sample.token none 30 Sample.headerText
    Sample.payloadText "c2ln" Sample.header Sample.claims (some "k1") Sample.sender
    [.obj Sample.jwk] 1060 (some 1000) none (Sample.picky_presented _ (by simp))
    Sample.picky_finds Sample.times (by norm_num)

/-- Go accepts the token 31 seconds before it was issued. -/
theorem go_accepts_from_future :
    Presented Sample.pickyLibs Sample.receiver (Sample.bundleOf [.obj Sample.jwk]) Sample.token none
        Sample.headerText Sample.payloadText "c2ln" Sample.header Sample.claims (some "k1")
        Sample.sender [.obj Sample.jwk] ∧
      (∀ impl : Impl, impl.finds Sample.pickyLibs
        (signingInput Sample.headerText Sample.payloadText) "c2ln" (some "k1") [.obj Sample.jwk]) ∧
      TimeClaims Sample.claims 1060 (some 1000) none ∧
      Impl.python.accepts Sample.pickyLibs Sample.receiver (Sample.bundleOf [.obj Sample.jwk]) 969
        Sample.token none 30 = false ∧
      Impl.typescript.accepts Sample.pickyLibs Sample.receiver (Sample.bundleOf [.obj Sample.jwk])
        969 Sample.token none 30 = false ∧
      Impl.go.accepts Sample.pickyLibs Sample.receiver (Sample.bundleOf [.obj Sample.jwk]) 969
        Sample.token none 30 = true ∧
      (969 : ℚ) < (1000 : ℤ) - 30 := by
  refine ⟨Sample.picky_presented _ (by simp), Sample.picky_finds, Sample.times, ?_, ?_, ?_, ?_⟩
  · decide +kernel
  · decide +kernel
  · decide +kernel
  · norm_num

end Spiffile
