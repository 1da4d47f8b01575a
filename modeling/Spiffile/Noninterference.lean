import Spiffile.VerifySound

/-!
# What other identities' entries can change

Nothing. A verifier reads a document through its trust domain, its version and
the entry of the identity the token claims; whatever stands under any other
name, in whatever order, the outcome is the same.
-/

namespace Spiffile

/-- Two documents that differ only in `identities` entries under other names
than `s`, as Python and JavaScript read members. -/
structure SameBut (s : String) (d₁ d₂ : Members) : Prop where
  trust_domain : Members.get? d₁ "trust_domain" = Members.get? d₂ "trust_domain"
  version : Members.get? d₁ "spiffile_version" = Members.get? d₂ "spiffile_version"
  identities : ∃ es₁ es₂, Members.get? d₁ "identities" = some (.obj es₁) ∧
    Members.get? d₂ "identities" = some (.obj es₂) ∧ Members.get? es₁ s = Members.get? es₂ s

/-- The same for Go, which gathers the members of a name in any letter case. -/
structure Go.SameBut (s : String) (d₁ d₂ : Members) : Prop where
  trust_domain : fieldValues "trust_domain" d₁ = fieldValues "trust_domain" d₂
  version : fieldValues "spiffile_version" d₁ = fieldValues "spiffile_version" d₂
  identities : ∃ es₁ es₂, decodeMap (fieldValues "identities" d₁) = some (some es₁) ∧
    decodeMap (fieldValues "identities" d₂) = some (some es₂) ∧
    Members.get? es₁ s = Members.get? es₂ s

/-- Two parses with the same verdict and, where they succeed, the same keys
under `s`. -/
def AgreeOn {ε τ : Type} (s : String) (r₁ r₂ : Except ε (Bundle τ)) : Prop :=
  (∃ e, r₁ = .error e ∧ r₂ = .error e) ∨
    ∃ b₁ b₂, r₁ = .ok b₁ ∧ r₂ = .ok b₂ ∧ b₁.identities.lookup s = b₂.identities.lookup s

theorem AgreeOn.isOk {ε τ : Type} {s : String} {r₁ r₂ : Except ε (Bundle τ)}
    (h : AgreeOn s r₁ r₂) : r₁.isOk = r₂.isOk := by
  obtain ⟨e, rfl, rfl⟩ | ⟨b₁, b₂, rfl, rfl, -⟩ := h
  · rfl
  · rfl

/-- Code that goes on with the keys under `s`, and with nothing else of the
bundle, cannot tell the two apart. -/
theorem AgreeOn.bind_congr {ε τ α : Type} {s : String} {r₁ r₂ : Except ε (Bundle τ)}
    (h : AgreeOn s r₁ r₂) (k : Bundle τ → Except ε α)
    (hk : ∀ b₁ b₂ : Bundle τ, b₁.identities.lookup s = b₂.identities.lookup s → k b₁ = k b₂) :
    (r₁ >>= k) = (r₂ >>= k) := by
  obtain ⟨e, rfl, rfl⟩ | ⟨b₁, b₂, rfl, rfl, hl⟩ := h
  · rfl
  · exact hk b₁ b₂ hl

namespace Py

theorem fromDict_agreeOn {s : String} {d₁ d₂ : Members} (h : SameBut s d₁ d₂) :
    AgreeOn s (fromDict (.obj d₁)) (fromDict (.obj d₂)) := by
  obtain ⟨htd, hver, es₁, es₂, h₁, h₂, hs⟩ := h
  simp only [fromDict, htd, hver, h₁, h₂]
  cases Members.get? d₂ "trust_domain" with
  | none => exact Or.inl ⟨_, rfl, rfl⟩
  | some trustDomain =>
    cases Members.get? d₂ "spiffile_version" with
    | none => exact Or.inl ⟨_, rfl, rfl⟩
    | some version =>
      by_cases hv : Json.pyEq version (.int bundleVersion) = true
      · refine Or.inr ⟨⟨trustDomain, _⟩, ⟨trustDomain, _⟩, by simp [hv]; rfl, by simp [hv]; rfl, ?_⟩
        rw [py_lookup, py_lookup, hs]
      · exact Or.inl ⟨.invalidBundle .unsupportedVersion, by simp [hv], by simp [hv]⟩

theorem keysFor_congr {b₁ b₂ : Bundle Json} {s : String}
    (h : b₁.identities.lookup s = b₂.identities.lookup s) : keysFor b₁ s = keysFor b₂ s := by
  rw [keysFor, keysFor, h]

theorem verify_congr (lib : PyJwt) (self : SpiffeId) (now : ℚ) (token : String)
    (audience : Option String) (leeway : ℚ) (s : String)
    (hsub : ∀ claims, lib.decodeUnverified token = .ok claims →
      Members.get? claims "sub" = some (.str s))
    {f₁ f₂ : BundleFile} (hf : AgreeOn s (readBundle f₁) (readBundle f₂)) :
    verify lib self f₁ now token audience leeway = verify lib self f₂ now token audience leeway := by
  unfold verify
  refine bind_congr_ok fun header _ => bind_congr_ok fun unverified hu => ?_
  have hs := hsub unverified (orMalformed_eq_ok hu)
  refine bind_congr_ok fun _ _ => bind_congr_ok fun id hid => bind_congr_ok fun _ _ => ?_
  rw [hs, Option.getD_some] at hid
  obtain ⟨sub, hsubEq, hparse⟩ := parseClaim_eq_ok hid
  cases hsubEq
  have hids : id.toString = s := toString_of_parse hparse
  exact hf.bind_congr _ fun b₁ b₂ hl => by rw [hids, keysFor_congr hl]

end Py

namespace Ts

theorem fromMembers_agreeOn {s : String} (trustDomain version : Option Json) {es₁ es₂ : Members}
    (h : Members.get? es₁ s = Members.get? es₂ s) :
    AgreeOn s (fromMembers trustDomain version (some (.obj es₁)))
      (fromMembers trustDomain version (some (.obj es₂))) := by
  have hmissing : ∀ r : Except Exn (Bundle String), AgreeOn s r r := by
    intro r
    cases r with
    | error e => exact Or.inl ⟨e, rfl, rfl⟩
    | ok b => exact Or.inr ⟨b, b, rfl, rfl, rfl⟩
  rcases trustDomain with _ | v
  · exact hmissing _
  cases v with
  | str trustDomain =>
    rcases version with _ | version
    · exact hmissing _
    by_cases hv : Json.jsStrictEq (some version) (some (.int bundleVersion)) = true
    · have hok : ∀ es, fromMembers (some (.str trustDomain)) (some version) (some (.obj es)) =
          .ok ⟨trustDomain, collect (entry trustDomain) (Members.items es)⟩ := by
        intro es
        simp [fromMembers, isObject, hv, objectEntries]
      refine Or.inr ⟨_, _, hok es₁, hok es₂, ?_⟩
      rw [ts_lookup, ts_lookup, h]
    · have herr : ∀ es, fromMembers (some (.str trustDomain)) (some version) (some (.obj es)) =
          if Json.jsPrints version then .error (.invalidBundle .unsupportedVersion)
          else .error .typeError := by
        intro es
        simp [fromMembers, isObject, hv]
      rw [herr, herr]
      exact hmissing _
  | _ => exact hmissing _

theorem fromDocument_agreeOn {s : String} {d₁ d₂ : Members} (h : SameBut s d₁ d₂) :
    AgreeOn s (fromDocument (.obj d₁)) (fromDocument (.obj d₂)) := by
  obtain ⟨htd, hver, es₁, es₂, h₁, h₂, hs⟩ := h
  simp only [fromDocument, htd, hver, h₁, h₂]
  exact fromMembers_agreeOn _ _ hs

theorem keysFor_congr {b₁ b₂ : Bundle String} {s : String}
    (h : b₁.identities.lookup s = b₂.identities.lookup s) : keysFor b₁ s = keysFor b₂ s := by
  rw [keysFor, keysFor, h]

theorem verify_congr (node : Node) (self : SpiffeId) (now : ℚ) (token : String)
    (audience : Option String) (leeway : ℚ) (s : String)
    (hsub : ∀ h p sig claims, segments token = [h, p, sig] → node.parseSegment p = some claims →
      Json.jsProp? claims "sub" = some (some (.str s)))
    {f₁ f₂ : BundleFile} (hf : AgreeOn s (sourceGet f₁) (sourceGet f₂)) :
    verify node self f₁ now token audience leeway =
      verify node self f₂ now token audience leeway := by
  unfold verify
  split
  · next h p sig hseg =>
    refine bind_congr_ok fun header _ => bind_congr_ok fun claims hclaims => ?_
    have hs := hsub h p sig claims hseg (parsed_eq_ok hclaims)
    unfold verifyParsed
    refine bind_congr_ok fun _ _ => bind_congr_ok fun _ _ => bind_congr_ok fun subProp hprop => ?_
    refine bind_congr_ok fun sub hcheck => bind_congr_ok fun id hid => ?_
    have hsubEq : sub = s := by
      have hp := prop_eq_ok hprop
      rw [hs, checkSub_eq_ok hcheck] at hp
      cases hp
      rfl
    have hids : id.toString = s := hsubEq ▸ toString_of_parse (parseSub_eq_ok hid)
    refine bind_congr_ok fun _ _ => bind_congr_ok fun _ _ => bind_congr_ok fun _ _ => ?_
    refine bind_congr_ok fun _ _ => bind_congr_ok fun _ _ => bind_congr_ok fun _ _ => ?_
    exact hf.bind_congr _ fun b₁ b₂ hl => by rw [hids, keysFor_congr hl]
  · rfl

end Ts

namespace Go

theorem parseBundle_agreeOn {s : String} {d₁ d₂ : Members} (h : SameBut s d₁ d₂) :
    AgreeOn s (readBundle (.doc (.obj d₁))) (readBundle (.doc (.obj d₂))) := by
  obtain ⟨htd, hver, es₁, es₂, h₁, h₂, hs⟩ := h
  have herr : ∀ e, readBundle (.doc (.obj d₁)) = .error e →
      readBundle (.doc (.obj d₂)) = .error e →
      AgreeOn s (readBundle (.doc (.obj d₁))) (readBundle (.doc (.obj d₂))) :=
    fun e he₁ he₂ => Or.inl ⟨e, he₁, he₂⟩
  cases ht : decodeStringPtr (fieldValues "trust_domain" d₂) with
  | none =>
    have hraw : ∀ d, decodeStringPtr (fieldValues "trust_domain" d) = none →
        readBundle (.doc (.obj d)) = .error .notJson := by
      intro d hd
      simp [readBundle, parseBundle, decodeRaw, hd, Except.map]
    exact herr .notJson (hraw d₁ (htd ▸ ht)) (hraw d₂ ht)
  | some trustDomain =>
    cases hv : decodeIntPtr (fieldValues "spiffile_version" d₂) with
    | none =>
      have hraw : ∀ d, decodeIntPtr (fieldValues "spiffile_version" d) = none →
          readBundle (.doc (.obj d)) = .error .notJson := by
        intro d hd
        simp [readBundle, parseBundle, decodeRaw, hd, Except.map]
      exact herr .notJson (hraw d₁ (hver ▸ hv)) (hraw d₂ hv)
    | some version =>
      have hraw₁ : decodeRaw (.obj d₁) = some ⟨trustDomain, version, some es₁⟩ := by
        simp [decodeRaw, htd, ht, hver, hv, h₁]
      have hraw₂ : decodeRaw (.obj d₂) = some ⟨trustDomain, version, some es₂⟩ := by
        simp [decodeRaw, ht, hv, h₂]
      have hmissing : ∀ d es, decodeRaw (.obj d) = some ⟨trustDomain, version, some es⟩ →
          trustDomain = none ∨ version = none → readBundle (.doc (.obj d)) = .error .missingMember := by
        rintro d es hd (rfl | rfl) <;> simp [readBundle, parseBundle, hd, Except.map]
      rcases trustDomain with _ | trustDomain
      · exact herr .missingMember (hmissing d₁ es₁ hraw₁ (Or.inl rfl))
          (hmissing d₂ es₂ hraw₂ (Or.inl rfl))
      rcases version with _ | version
      · exact herr .missingMember (hmissing d₁ es₁ hraw₁ (Or.inr rfl))
          (hmissing d₂ es₂ hraw₂ (Or.inr rfl))
      by_cases hb : version = bundleVersion
      · have hok : ∀ d es, decodeRaw (.obj d) = some ⟨some trustDomain, some version, some es⟩ →
            readBundle (.doc (.obj d)) =
              .ok ⟨trustDomain, collect (entry trustDomain) (Members.items es)⟩ := by
          intro d es hd
          simp [readBundle, parseBundle, hd, hb, Except.map]
        refine Or.inr ⟨_, _, hok d₁ es₁ hraw₁, hok d₂ es₂ hraw₂, ?_⟩
        rw [go_lookup, go_lookup, hs]
      · exact herr (.unsupportedVersion version)
          (by simp [readBundle, parseBundle, hraw₁, hb, Except.map])
          (by simp [readBundle, parseBundle, hraw₂, hb, Except.map])

theorem keysFor_congr {b₁ b₂ : Bundle String} {s : String}
    (h : b₁.identities.lookup s = b₂.identities.lookup s) : keysFor b₁ s = keysFor b₂ s := by
  rw [keysFor, keysFor, h]

theorem verify_congr (lib : GoJwt) (self : SpiffeId) (now : ℚ) (token audience : String)
    (leeway : ℚ) (s : String)
    (hsub : ∀ header claims, lib.parseUnverified token = .ok (header, claims) →
      lib.getSubject claims = some s)
    {f₁ f₂ : BundleFile} (hf : AgreeOn s (readBundle f₁) (readBundle f₂)) :
    verify lib self f₁ now token audience leeway = verify lib self f₂ now token audience leeway := by
  unfold verify
  refine bind_congr_ok fun unverified hu => bind_congr_ok fun sub hsubject => ?_
  have hsubEq : sub = s := by
    have hs := hsub unverified.1 unverified.2 (orElse_eq_ok hu)
    unfold claimedSubject at hsubject
    rw [hs] at hsubject
    dsimp only at hsubject
    split_ifs at hsubject
    cases hsubject
    rfl
  refine bind_congr_ok fun id hid => bind_congr_ok fun _ _ => ?_
  have hids : id.toString = s := hsubEq ▸ toString_of_parse (orElse_eq_ok hid)
  exact hf.bind_congr _ fun b₁ b₂ hl => by rw [hids, keysFor_congr hl]

end Go

/-- Parsing a document and verifying a token that claims `s` has the same
outcome for two documents that differ elsewhere in `identities` only. -/
theorem verify_noninterference (s : String) (d₁ d₂ : Members) :
    (SameBut s d₁ d₂ →
      (Py.fromDict (.obj d₁)).isOk = (Py.fromDict (.obj d₂)).isOk ∧
      ∀ (lib : Py.PyJwt) self now token audience leeway,
        (∀ claims, lib.decodeUnverified token = .ok claims →
          Members.get? claims "sub" = some (.str s)) →
        Py.verify lib self (.doc (.obj d₁)) now token audience leeway =
          Py.verify lib self (.doc (.obj d₂)) now token audience leeway) ∧
    (SameBut s d₁ d₂ →
      (Ts.fromDocument (.obj d₁)).isOk = (Ts.fromDocument (.obj d₂)).isOk ∧
      ∀ (node : Ts.Node) self now token audience leeway,
        (∀ h p sig claims, segments token = [h, p, sig] → node.parseSegment p = some claims →
          Json.jsProp? claims "sub" = some (some (.str s))) →
        Ts.verify node self (.doc (.obj d₁)) now token audience leeway =
          Ts.verify node self (.doc (.obj d₂)) now token audience leeway) ∧
    (Go.SameBut s d₁ d₂ →
      (Go.readBundle (.doc (.obj d₁))).isOk = (Go.readBundle (.doc (.obj d₂))).isOk ∧
      ∀ (lib : Go.GoJwt) self now token audience leeway,
        (∀ header claims, lib.parseUnverified token = .ok (header, claims) →
          lib.getSubject claims = some s) →
        Go.verify lib self (.doc (.obj d₁)) now token audience leeway =
          Go.verify lib self (.doc (.obj d₂)) now token audience leeway) := by
  refine ⟨fun h => ?_, fun h => ?_, fun h => ?_⟩
  · have ha := Py.fromDict_agreeOn h
    exact ⟨ha.isOk, fun lib self now token audience leeway hsub =>
      Py.verify_congr lib self now token audience leeway s hsub ha⟩
  · have ha := Ts.fromDocument_agreeOn h
    exact ⟨ha.isOk, fun node self now token audience leeway hsub =>
      Ts.verify_congr node self now token audience leeway s hsub ha⟩
  · have ha := Go.parseBundle_agreeOn h
    exact ⟨ha.isOk, fun lib self now token audience leeway hsub =>
      Go.verify_congr lib self now token audience leeway s hsub ha⟩

namespace Sample

def documentOf (others : Members) : Members :=
  [("trust_domain", .str "a.b"), ("spiffile_version", .int 1),
    ("identities", .obj (("spiffe://a.b/x", .obj [("keys", .arr [.obj jwk])]) :: others))]

/-- A malformed ID, a foreign one, and an entry that is no object. -/
def others : Members :=
  [("nonsense", .null), ("spiffe://c.d/z", .obj [("keys", .arr [.int 0])]),
    ("spiffe://a.b/z", .str "")]

theorem fold_ne : Go.foldName "identities" ≠ Go.foldName "trust_domain" ∧
    Go.foldName "identities" ≠ Go.foldName "spiffile_version" ∧
    Go.foldName "trust_domain" ≠ Go.foldName "spiffile_version" := by
  decide

theorem trust_domain_values (others : Members) :
    Go.fieldValues "trust_domain" (documentOf others) = [.str "a.b"] := by
  obtain ⟨h1, h2, h3⟩ := fold_ne
  simp [Go.fieldValues, documentOf, h1, h3.symm]

theorem version_values (others : Members) :
    Go.fieldValues "spiffile_version" (documentOf others) = [.int 1] := by
  obtain ⟨h1, h2, h3⟩ := fold_ne
  simp [Go.fieldValues, documentOf, h2, h3]

theorem identities_values (others : Members) :
    Go.fieldValues "identities" (documentOf others) =
      [.obj (("spiffe://a.b/x", .obj [("keys", .arr [.obj jwk])]) :: others)] := by
  obtain ⟨h1, h2, h3⟩ := fold_ne
  simp [Go.fieldValues, documentOf, h1.symm, h2.symm]

end Sample

theorem verify_noninterference_sample :
    Py.verify Sample.pyJwt Sample.receiver (.doc (.obj (Sample.documentOf Sample.others))) 1010
        Sample.token none 30 =
      Py.verify Sample.pyJwt Sample.receiver (.doc (.obj (Sample.documentOf []))) 1010
        Sample.token none 30 ∧
    Ts.verify Sample.node Sample.receiver (.doc (.obj (Sample.documentOf Sample.others))) 1010
        Sample.token none 30 =
      Ts.verify Sample.node Sample.receiver (.doc (.obj (Sample.documentOf []))) 1010
        Sample.token none 30 ∧
    Go.verify Sample.goJwt Sample.receiver (.doc (.obj (Sample.documentOf Sample.others))) 1010
        Sample.token "" 30 =
      Go.verify Sample.goJwt Sample.receiver (.doc (.obj (Sample.documentOf []))) 1010
        Sample.token "" 30 := by
  have hentries : ∀ others : Members, Members.get? others "spiffe://a.b/x" = none →
      Members.get? (("spiffe://a.b/x", .obj [("keys", .arr [.obj Sample.jwk])]) :: others)
        "spiffe://a.b/x" = some (.obj [("keys", .arr [.obj Sample.jwk])]) := by
    intro others h
    simp [Members.get?, h]
  have hothers : Members.get? Sample.others "spiffe://a.b/x" = none := by
    simp [Sample.others, Members.get?]
  have hsame : SameBut "spiffe://a.b/x" (Sample.documentOf Sample.others) (Sample.documentOf []) :=
    ⟨rfl, rfl, _, _, rfl, rfl, (hentries _ hothers).trans (hentries _ rfl).symm⟩
  have hsameGo : Go.SameBut "spiffe://a.b/x" (Sample.documentOf Sample.others)
      (Sample.documentOf []) := by
    refine ⟨by rw [Sample.trust_domain_values, Sample.trust_domain_values],
      by rw [Sample.version_values, Sample.version_values], _, _,
      by rw [Sample.identities_values]; rfl, by rw [Sample.identities_values]; rfl, ?_⟩
    simp only [Option.getD_none, List.nil_append]
    rw [hentries _ hothers, hentries _ rfl]
  refine ⟨?_, ?_, ?_⟩
  · refine ((verify_noninterference "spiffe://a.b/x" _ _).1 hsame).2 Sample.pyJwt _ _ _ _ _ ?_
    intro claims hclaims
    obtain ⟨h, p, s, hseg, hpay⟩ := Sample.pyJwt_documented.unverified_ok _ _ hclaims
    rw [Sample.segments_token] at hseg
    cases hseg
    have hpay' : Sample.segment Sample.payloadText = some (.obj claims) := hpay
    rw [Sample.segment_payload] at hpay'
    cases hpay'
    simp [Sample.claims, Members.get?]
  · refine ((verify_noninterference "spiffe://a.b/x" _ _).2.1 hsame).2 Sample.node _ _ _ _ _ ?_
    intro h p sig claims hseg hpay
    rw [Sample.segments_token] at hseg
    cases hseg
    have hpay' : Sample.segment Sample.payloadText = some claims := hpay
    rw [Sample.segment_payload] at hpay'
    cases hpay'
    simp [Sample.claims, Members.get?, Json.jsProp?]
  · refine ((verify_noninterference "spiffe://a.b/x" _ _).2.2 hsameGo).2 Sample.goJwt _ _ _ _ _ ?_
    intro header claims hclaims
    have hread := Sample.goJwt_documented.unverified_complete _ _ _ _ _ _
      Sample.goJwt_reads (by simp [Sample.header, Members.get?, algorithm])
    rw [hread] at hclaims
    obtain ⟨-, rfl⟩ := Prod.mk.inj (Except.ok.inj hclaims)
    exact (Sample.goJwt_documented.subject Sample.claims "spiffe://a.b/x" (by decide)).mpr
      (by simp [Sample.claims, Members.get?])

end Spiffile
