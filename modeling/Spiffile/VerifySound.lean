import Mathlib.Tactic.Linarith
import Spiffile.Verify

/-!
# What acceptance promises

A verifier that returns a caller has seen a token whose header, claims and
signature all belong to the one identity it names, under a key the current
document binds to that identity.
-/

namespace Spiffile

/-- Acceptance of `caller` is justified: `binds` reads the document, and
`verifies` says that an element of the bound list loads as a key that accepts
the signature segment over a text. -/
def Justified (segment : String → Option Json) (numericDate : Json → Option ℚ)
    (binds : String → List Json → Prop) (verifies : Json → String → String → Prop)
    (token audience : String) (now leeway : ℚ) (caller : Caller) : Prop :=
  ∃ h p s header claims sub,
    segments token = [h, p, s] ∧
    segment h = some (.obj header) ∧ Members.get? header "alg" = some (.str algorithm) ∧
    segment p = some (.obj claims) ∧ caller.claims = .obj claims ∧
    Members.get? claims "sub" = some (.str sub) ∧
    Go.parseSpiffeID sub = .ok caller.id ∧ caller.id.toString = sub ∧
    Members.get? claims "aud" = some (.str audience) ∧
    (∃ v exp, Members.get? claims "exp" = some v ∧ numericDate v = some exp ∧ now ≤ exp + leeway) ∧
    ∃ jwks, binds sub jwks ∧ ∃ jwk ∈ jwks, verifies jwk (signingInput h p) s

/-- The current document binds the list. -/
def BundleFile.binds (binds : Json → String → List Json → Prop) (file : BundleFile)
    (sub : String) (jwks : List Json) : Prop :=
  ∃ d, file = .doc d ∧ binds d sub jwks

namespace Py

def VerifiesUnder (lib : PyJwt) (jwk : Json) (input signatureText : String) : Prop :=
  ∃ ms key, jwk = .obj ms ∧ lib.fromDict ms = .ok key ∧ lib.verifies key input signatureText = true

theorem orMalformed_eq_ok {α : Type} {r : Except LibExn α} {a : α} (h : orMalformed r = .ok a) :
    r = .ok a := by
  unfold orMalformed at h
  split at h
  · cases h
    rfl
  · cases h
  · cases h

theorem parseClaim_eq_ok {v : Json} {id : SpiffeId} (h : parseClaim v = .ok id) :
    ∃ sub, v = .str sub ∧ Go.parseSpiffeID sub = .ok id := by
  unfold parseClaim at h
  split at h
  · next sub =>
    split at h
    · next id' hp =>
      rw [py_parse_eq] at hp
      cases h
      exact ⟨sub, rfl, hp⟩
    · cases h
  · cases h

theorem keysFor_eq_ok {b : Bundle Json} {s : String} {jwks : List Json}
    (h : keysFor b s = .ok jwks) : b.identities.lookup s = some jwks := by
  unfold keysFor at h
  split at h
  · next keys hl =>
    cases h
    exact hl
  · cases h

theorem readBundle_eq_ok {file : BundleFile} {b : Bundle Json} (h : readBundle file = .ok b) :
    ∃ d, file = .doc d ∧ fromDict d = .ok b := by
  cases file with
  | missing => cases h
  | notJson => cases h
  | doc d => exact ⟨d, rfl, h⟩

theorem asDicts_eq_some {jwks : List Json} {dicts : List Members} (h : asDicts jwks = some dicts) :
    jwks = dicts.map .obj := by
  induction jwks generalizing dicts with
  | nil =>
    cases h
    rfl
  | cons jwk jwks ih =>
    cases jwk with
    | obj ms =>
      obtain ⟨rest, hrest, rfl⟩ := Option.map_eq_some_iff.mp h
      rw [List.map_cons, ← ih hrest]
    | _ => cases h

theorem candidates_mem {boundJwks : List Json} {kid : Option Json} {cs : List Members}
    (h : candidates boundJwks kid = .ok cs) : ∀ ms ∈ cs, Json.obj ms ∈ boundJwks := by
  unfold candidates at h
  split at h
  · cases h
  · next dicts hd =>
    cases h
    intro ms hms
    rw [asDicts_eq_some hd]
    split_ifs at hms
    · exact List.mem_map.mpr ⟨ms, hms, rfl⟩
    · exact List.mem_map.mpr ⟨ms, (List.mem_filter.mp hms).1, rfl⟩

/-- The loop accepts only through a candidate that loads and decodes the token. -/
theorem tryCandidates_eq_ok {lib : PyJwt} {token : String} {opts : DecodeOptions} {now : ℚ}
    {claimedId : SpiffeId} {lastError : Option String} {cs : List Members} {caller : Caller}
    (h : tryCandidates lib token opts now claimedId lastError cs = .ok caller) :
    ∃ ms ∈ cs, ∃ key claims, lib.fromDict ms = .ok key ∧
      lib.decode token key opts now = .ok claims ∧ caller = ⟨claimedId, .obj claims⟩ := by
  unfold tryCandidates at h
  rcases Scan.scan_cases (tryCandidate lib token opts now claimedId)
    (fun lastError => .error (.invalidToken (.noMatch claimedId.toString lastError))) lastError cs with
    ⟨s', hs'⟩ | ⟨ms, hms, hbody⟩
  · rw [h] at hs'
    cases hs'
  · rw [h] at hbody
    unfold tryCandidate at hbody
    split at hbody
    · cases hbody
    · cases hbody
    · next key hkey =>
      split at hbody
      · cases hbody
      · cases hbody
      · cases hbody
      · next claims hclaims =>
        cases hbody
        exact ⟨ms, hms, key, claims, hkey, hclaims, rfl⟩

theorem justified_of_verify (lib : PyJwt) (hlib : lib.Documented) (self : SpiffeId) (file : BundleFile)
    (now : ℚ) (token : String) (audience : Option String) (leeway : ℚ) (caller : Caller)
    (h : verify lib self file now token audience leeway = .ok caller) :
    Justified lib.segment lib.numericDate (file.binds Binds) (VerifiesUnder lib) token
      (audience.getD self.toString) now leeway caller := by
  unfold verify at h
  obtain ⟨header, -, h⟩ := bind_eq_ok h
  obtain ⟨unverified, hunv, h⟩ := bind_eq_ok h
  obtain ⟨-, -, h⟩ := bind_eq_ok h
  obtain ⟨claimedId, hid, h⟩ := bind_eq_ok h
  obtain ⟨_, haud, h⟩ := bind_eq_ok h
  obtain ⟨bundle, hb, h⟩ := bind_eq_ok h
  obtain ⟨boundJwks, hk, h⟩ := bind_eq_ok h
  obtain ⟨cs, hc, h⟩ := bind_eq_ok h
  obtain ⟨ms, hms, key, claims, hkey, hdec, rfl⟩ := tryCandidates_eq_ok h
  obtain ⟨hd, p, s, header', alg, ⟨hseg, hhead, hpay⟩, halg, hmem, hver, hval⟩ :=
    hlib.decode_ok _ _ _ _ _ hdec
  -- both decodings read the one payload segment
  have hsame : unverified = claims := by
    obtain ⟨h', p', s', hseg', hpay'⟩ := hlib.unverified_ok _ _ (orMalformed_eq_ok hunv)
    rw [hseg] at hseg'
    cases hseg'
    rw [hpay] at hpay'
    cases hpay'
    rfl
  subst hsame
  obtain ⟨sub, hsub, hparse⟩ := parseClaim_eq_ok hid
  have hsubEq : Members.get? unverified "sub" = some (.str sub) := by
    cases hs : Members.get? unverified "sub" with
    | none => simp [hs] at hsub
    | some v =>
      rw [hs] at hsub
      exact congrArg some hsub
  have haudEq : Members.get? unverified "aud" = some (.str (audience.getD self.toString)) := by
    rcases hlib.audience _ _ _ hval with ha | ⟨xs, hx⟩
    · exact ha
    · have hbad := ensure_eq_ok haud
      rw [hx] at hbad
      simp [absentOrString] at hbad
  obtain ⟨v, hexp⟩ := hlib.required _ _ _ hval "exp" (by simp [verifyOptions])
  obtain ⟨exp, hdate, hlt⟩ := hlib.expiry _ _ _ v hval hexp
  have hexpOk : now ≤ exp + leeway := by
    have hl : now - leeway < exp := hlt
    linarith
  obtain ⟨d, rfl, hfrom⟩ := readBundle_eq_ok hb
  have hid' : claimedId.toString = sub := toString_of_parse hparse
  have hlook := keysFor_eq_ok hk
  rw [hid'] at hlook
  have halgEq : alg = algorithm := List.mem_singleton.mp hmem
  exact ⟨hd, p, s, header', unverified, sub, hseg, hhead, halgEq ▸ halg, hpay, rfl, hsubEq, hparse,
    hid', haudEq, ⟨v, exp, hexp, hdate, hexpOk⟩, boundJwks, ⟨d, rfl, py_binds hfrom hlook⟩,
    .obj ms, candidates_mem hc ms hms, ms, key, rfl, hkey, hver⟩

end Py

namespace Ts

def VerifiesUnder (node : Node) (jwk : Json) (input signatureText : String) : Prop :=
  ∃ key, loadKey node jwk = some key ∧ node.cryptoVerify key input signatureText = some true

theorem parsed_eq_ok {v : Option Json} {w : Json} (h : parsed v = .ok w) : v = some w := by
  unfold parsed at h
  split at h
  · cases h
    rfl
  · cases h

theorem prop_eq_ok {v : Json} {name : String} {p : Option Json} (h : prop v name = .ok p) :
    Json.jsProp? v name = some p := by
  unfold prop at h
  split at h
  · next q hq =>
    cases h
    exact hq
  · cases h

/-- Only an object has a property with a JSON value. -/
theorem obj_of_jsProp {v w : Json} {name : String} (h : Json.jsProp? v name = some (some w)) :
    ∃ ms, v = .obj ms ∧ Members.get? ms name = some w := by
  cases v with
  | obj ms => exact ⟨ms, rfl, Option.some_inj.mp h⟩
  | _ => simp [Json.jsProp?] at h

theorem checkAlgorithm_eq_ok {alg : Option Json} {u : Unit} (h : checkAlgorithm alg = .ok u) :
    alg = some (.str algorithm) := by
  unfold checkAlgorithm at h
  split_ifs at h with h1
  exact (Json.jsStrictEq_str _ _).mp h1

theorem checkSub_eq_ok {sub : Option Json} {s : String} (h : checkSub sub = .ok s) :
    sub = some (.str s) := by
  unfold checkSub at h
  split at h
  · split_ifs at h
    cases h
    rfl
  · cases h

theorem parseSub_eq_ok {s : String} {id : SpiffeId} (h : parseSub s = .ok id) :
    Go.parseSpiffeID s = .ok id := by
  unfold parseSub at h
  split at h
  · next id' hp =>
    cases h
    rw [← ts_parse_eq, hp]
  · cases h

theorem checkExp_eq_ok {exp : Option Json} {leeway now : ℚ} {u : Unit}
    (h : checkExp exp leeway now = .ok u) :
    ∃ v e, exp = some v ∧ Json.num? v = some e ∧ now ≤ e + leeway := by
  unfold checkExp at h
  split at h
  · cases h
  · next e he =>
    obtain ⟨v, hv, hn⟩ := Option.bind_eq_some_iff.mp he
    have hle := ensure_eq_ok h
    exact ⟨v, e, hv, hn, by simpa using hle⟩

theorem keysFor_eq_ok {b : Bundle String} {s : String} {jwks : List Json}
    (h : keysFor b s = .ok jwks) : b.identities.lookup s = some jwks := by
  unfold keysFor at h
  split at h
  · next keys hl =>
    cases h
    exact hl
  · cases h

theorem sourceGet_eq_ok {file : BundleFile} {b : Bundle String} (h : sourceGet file = .ok b) :
    ∃ d, file = .doc d ∧ fromDocument d = .ok b := by
  cases file with
  | missing => cases h
  | notJson => cases h
  | doc d => exact ⟨d, rfl, h⟩

theorem candidates_mem {boundJwks cs : List Json} {kid : Option Json}
    (h : candidates boundJwks kid = .ok cs) : ∀ jwk ∈ cs, jwk ∈ boundJwks := by
  unfold candidates at h
  dsimp only at h
  split_ifs at h
  · cases h
    exact fun jwk hjwk => hjwk
  · cases h
    exact fun jwk hjwk => (List.mem_filter.mp hjwk).1

theorem tryCandidates_eq_ok {node : Node} {input signatureText : String} {claimedId : SpiffeId}
    {claims : Json} {cs : List Json} {caller : Caller}
    (h : tryCandidates node input signatureText claimedId claims cs = .ok caller) :
    caller = ⟨claimedId, claims⟩ ∧ ∃ jwk ∈ cs, VerifiesUnder node jwk input signatureText := by
  unfold tryCandidates at h
  rcases Scan.scan_cases (tryCandidate node input signatureText claimedId claims)
    (fun _ => .error (.invalidToken (.noMatch claimedId.toString))) () cs with
    ⟨s', hs'⟩ | ⟨jwk, hjwk, hbody⟩
  · rw [h] at hs'
    cases hs'
  · rw [h] at hbody
    unfold tryCandidate at hbody
    split at hbody
    · cases hbody
    · next key hkey =>
      split at hbody
      · cases hbody
      · next hv =>
        cases hbody
        exact ⟨rfl, jwk, hjwk, key, hkey, hv⟩
      · cases hbody

/-- What an accepting call has found. -/
theorem verify_eq_ok {node : Node} {self : SpiffeId} {file : BundleFile} {now : ℚ} {token : String}
    {audience : Option String} {leeway : ℚ} {caller : Caller}
    (h : verify node self file now token audience leeway = .ok caller) :
    ∃ hd p s header claims id b jwks cs, segments token = [hd, p, s] ∧
      node.parseSegment hd = some (.obj header) ∧ node.parseSegment p = some (.obj claims) ∧
      Members.get? header "alg" = some (.str algorithm) ∧
      Members.get? claims "sub" = some (.str (SpiffeId.toString id)) ∧
      Go.parseSpiffeID id.toString = .ok id ∧
      Members.get? claims "aud" = some (.str (expectedAudience self audience)) ∧
      checkExp (Members.get? claims "exp") leeway now = .ok () ∧
      checkIat (Members.get? claims "iat") leeway now = .ok () ∧
      sourceGet file = .ok b ∧ b.identities.lookup id.toString = some jwks ∧
      candidates jwks (Members.get? header "kid") = .ok cs ∧
      tryCandidates node (signingInput hd p) s id (.obj claims) cs = .ok caller := by
  unfold verify at h
  split at h
  · next hd p s hseg =>
    obtain ⟨header, hhead, h⟩ := bind_eq_ok h
    obtain ⟨claims, hclaims, h⟩ := bind_eq_ok h
    unfold verifyParsed at h
    obtain ⟨alg, halg, h⟩ := bind_eq_ok h
    obtain ⟨_, hcheck, h⟩ := bind_eq_ok h
    obtain ⟨subProp, hsubProp, h⟩ := bind_eq_ok h
    obtain ⟨sub, hsub, h⟩ := bind_eq_ok h
    obtain ⟨id, hid, h⟩ := bind_eq_ok h
    obtain ⟨aud, haud, h⟩ := bind_eq_ok h
    obtain ⟨_, haudOk, h⟩ := bind_eq_ok h
    obtain ⟨exp, hexp, h⟩ := bind_eq_ok h
    obtain ⟨_, hexpOk, h⟩ := bind_eq_ok h
    obtain ⟨iat, hiat, h⟩ := bind_eq_ok h
    obtain ⟨_, hiatOk, h⟩ := bind_eq_ok h
    obtain ⟨b, hb, h⟩ := bind_eq_ok h
    obtain ⟨jwks, hk, h⟩ := bind_eq_ok h
    obtain ⟨kid, hkid, h⟩ := bind_eq_ok h
    obtain ⟨cs, hc, htry⟩ := bind_eq_ok h
    have halg' := prop_eq_ok halg
    rw [checkAlgorithm_eq_ok hcheck] at halg'
    obtain ⟨headerMs, rfl, halgEq⟩ := obj_of_jsProp halg'
    have hsub' := prop_eq_ok hsubProp
    rw [checkSub_eq_ok hsub] at hsub'
    obtain ⟨claimsMs, rfl, hsubEq⟩ := obj_of_jsProp hsub'
    have hparse := parseSub_eq_ok hid
    obtain rfl : id.toString = sub := toString_of_parse hparse
    have haudEq := prop_eq_ok haud
    rw [(Json.jsStrictEq_str _ _).mp (ensure_eq_ok haudOk)] at haudEq
    cases hexp
    cases hiat
    cases hkid
    exact ⟨hd, p, s, headerMs, claimsMs, id, b, jwks, cs, hseg, parsed_eq_ok hhead,
      parsed_eq_ok hclaims, halgEq, hsubEq, hparse, Option.some_inj.mp haudEq, hexpOk, hiatOk, hb,
      keysFor_eq_ok hk, hc, htry⟩
  · cases h

theorem justified_of_verify (node : Node) (self : SpiffeId) (file : BundleFile) (now : ℚ)
    (token : String) (audience : Option String) (leeway : ℚ) (caller : Caller)
    (h : verify node self file now token audience leeway = .ok caller) :
    Justified node.parseSegment Json.num? (file.binds Binds) (VerifiesUnder node) token
      (audience.getD self.toString) now leeway caller := by
  obtain ⟨hd, p, s, header, claims, id, b, jwks, cs, hseg, hhead, hclaims, halg, hsub, hid, haud,
    hexp, -, hb, hlook, hc, htry⟩ := verify_eq_ok h
  obtain ⟨rfl, jwk, hjwk, hver⟩ := tryCandidates_eq_ok htry
  obtain ⟨v, e, hv, hnum, hle⟩ := checkExp_eq_ok hexp
  obtain ⟨d, rfl, hfrom⟩ := sourceGet_eq_ok hb
  exact ⟨hd, p, s, header, claims, id.toString, hseg, hhead, halg, hclaims, rfl, hsub, hid, rfl, haud,
    ⟨v, e, hv, hnum, hle⟩, jwks, ⟨d, rfl, ts_binds hfrom hlook⟩, jwk, candidates_mem hc jwk hjwk,
    hver⟩

end Ts

namespace Go

def VerifiesUnder (lib : GoJwt) (jwk : Json) (input signatureText : String) : Prop :=
  ∃ kid key, loadKey jwk = some (kid, key) ∧ lib.verifies key input signatureText = true

theorem orElse_eq_ok {α β : Type} {r : Except α β} {e : α → Err} {b : β}
    (h : orElse r e = .ok b) : r = .ok b := by
  unfold orElse at h
  split at h
  · cases h
    rfl
  · cases h

theorem claimedSubject_eq_ok {lib : GoJwt} (hlib : lib.Documented) {claims : Members} {sub : String}
    (h : claimedSubject lib claims = .ok sub) : Members.get? claims "sub" = some (.str sub) := by
  unfold claimedSubject at h
  split at h
  · next s hs =>
    split_ifs at h with hne
    cases h
    exact (hlib.subject claims sub hne).mp hs
  · cases h

theorem keysFor_eq_ok {b : Bundle String} {s : String} {jwks : List Json}
    (h : keysFor b s = .ok jwks) : b.identities.lookup s = some jwks := by
  unfold keysFor at h
  split at h
  · next keys hl =>
    cases h
    exact hl
  · cases h

theorem readBundle_eq_ok {file : BundleFile} {b : Bundle String} (h : readBundle file = .ok b) :
    ∃ d ws, file = .doc d ∧ parseBundle d = .ok (b, ws) := by
  cases file with
  | missing => cases h
  | notJson => cases h
  | doc d =>
    cases hp : parseBundle d with
    | error e => simp [readBundle, hp, Except.map] at h
    | ok r =>
      obtain ⟨b', ws⟩ := r
      simp only [readBundle, hp, Except.map, Except.ok.injEq] at h
      subst h
      exact ⟨d, ws, rfl, hp⟩

theorem candidateKeys_mem {jwks : List Json} {kid : String} {key : PublicKey}
    (h : key ∈ candidateKeys jwks kid) : ∃ jwk ∈ jwks, ∃ k, loadKey jwk = some (k, key) := by
  unfold candidateKeys at h
  dsimp only at h
  obtain ⟨⟨k, key'⟩, hmem, rfl⟩ := List.mem_map.mp h
  have hall : (k, key') ∈ jwks.filterMap loadKey := by
    split_ifs at hmem
    · exact hmem
    · exact (List.mem_filter.mp hmem).1
  obtain ⟨jwk, hjwk, hload⟩ := List.mem_filterMap.mp hall
  exact ⟨jwk, hjwk, k, hload⟩

theorem tryCandidates_eq_ok {lib : GoJwt} {token : String} {opts : ParserOptions} {now : ℚ}
    {claimedId : SpiffeId} {claimedSub lastErr : String} {cs : List PublicKey} {caller : Caller}
    (h : tryCandidates lib token opts now claimedId claimedSub lastErr cs = .ok caller) :
    ∃ key ∈ cs, ∃ claims, lib.parseWithClaims token key opts now = .ok claims ∧
      caller = ⟨claimedId, .obj claims⟩ := by
  unfold tryCandidates at h
  rcases Scan.scan_cases (tryCandidate lib token opts now claimedId)
    (fun lastErr => .error (.noMatch claimedSub lastErr)) lastErr cs with
    ⟨s', hs'⟩ | ⟨key, hkey, hbody⟩
  · rw [h] at hs'
    cases hs'
  · rw [h] at hbody
    unfold tryCandidate at hbody
    split at hbody
    · next claims hclaims =>
      cases hbody
      exact ⟨key, hkey, claims, hclaims, rfl⟩
    · split_ifs at hbody
      cases hbody

theorem justified_of_verify (lib : GoJwt) (hlib : lib.Documented) (self : SpiffeId) (file : BundleFile)
    (now : ℚ) (token audience : String) (leeway : ℚ) (caller : Caller)
    (h : verify lib self file now token audience leeway = .ok caller) :
    Justified lib.segment lib.numericDate (file.binds Binds) (VerifiesUnder lib) token
      (expectedAudience self audience) now (effectiveLeeway leeway) caller := by
  unfold verify at h
  obtain ⟨⟨header, unverified⟩, hunv, h⟩ := bind_eq_ok h
  obtain ⟨sub, hsub, h⟩ := bind_eq_ok h
  obtain ⟨claimedId, hid, h⟩ := bind_eq_ok h
  obtain ⟨_, haud, h⟩ := bind_eq_ok h
  obtain ⟨bundle, hb, h⟩ := bind_eq_ok h
  obtain ⟨boundJwks, hk, h⟩ := bind_eq_ok h
  obtain ⟨-, -, h⟩ := bind_eq_ok h
  obtain ⟨key, hkey, claims, hparse, rfl⟩ := tryCandidates_eq_ok h
  obtain ⟨hd, p, s, header', alg, ⟨hseg, hhead, hpay⟩, halg, hmem, hver, hval⟩ :=
    hlib.parse_ok _ _ _ _ _ hparse
  -- both decodings read the one payload segment
  have hsame : unverified = claims := by
    obtain ⟨h', p', s', hseg', -, hpay'⟩ := hlib.unverified_ok _ _ _ (orElse_eq_ok hunv)
    rw [hseg] at hseg'
    cases hseg'
    rw [hpay] at hpay'
    exact (Option.some_inj.mp hpay').symm
  subst hsame
  have hsubEq := claimedSubject_eq_ok hlib hsub
  -- so the payload is an object, and not the `null` that decodes to no claims
  have hpayObj : lib.segment p = some (.obj unverified) := by
    obtain ⟨v, hv, hm⟩ := Option.bind_eq_some_iff.mp hpay
    rw [hv]
    cases v with
    | null =>
      cases hm
      simp [Members.get?] at hsubEq
    | obj ms =>
      cases hm
      rfl
    | _ => cases hm
  have hid' : claimedId.toString = sub := toString_of_parse (orElse_eq_ok hid)
  have haudEq : Members.get? unverified "aud" = some (.str (expectedAudience self audience)) := by
    rcases hlib.audience _ _ _ hval with ha | ⟨xs, hx⟩
    · exact ha
    · have hbad := ensure_eq_ok haud
      rw [hx] at hbad
      simp [absentOrString] at hbad
  obtain ⟨v, exp, hexp, hdate, hlt⟩ := hlib.expiry _ _ _ hval rfl
  obtain ⟨d, ws, rfl, hfrom⟩ := readBundle_eq_ok hb
  have hlook := keysFor_eq_ok hk
  rw [hid'] at hlook
  obtain ⟨jwk, hjwk, kid, hload⟩ := candidateKeys_mem hkey
  have halgEq : alg = algorithm := List.mem_singleton.mp hmem
  exact ⟨hd, p, s, header', unverified, sub, hseg, hhead, halgEq ▸ halg, hpayObj, rfl, hsubEq,
    orElse_eq_ok hid, hid', haudEq, ⟨v, exp, hexp, hdate, le_of_lt hlt⟩, boundJwks,
    ⟨d, rfl, go_binds hfrom hlook⟩, jwk, hjwk, kid, key, hload, hver⟩

end Go

/-- Whatever a verifier accepts is justified. The leeway of the Go verifier is
the one it works with: zero stands for the default. -/
theorem verify_justified :
    (∀ lib : Py.PyJwt, lib.Documented → ∀ self file now token audience leeway caller,
      Py.verify lib self file now token audience leeway = .ok caller →
        Justified lib.segment lib.numericDate (file.binds Binds) (Py.VerifiesUnder lib) token
          (audience.getD self.toString) now leeway caller) ∧
    (∀ (node : Ts.Node) self file now token audience leeway caller,
      Ts.verify node self file now token audience leeway = .ok caller →
        Justified node.parseSegment Json.num? (file.binds Binds) (Ts.VerifiesUnder node) token
          (audience.getD self.toString) now leeway caller) ∧
    (∀ lib : Go.GoJwt, lib.Documented → ∀ self file now token audience leeway caller,
      Go.verify lib self file now token audience leeway = .ok caller →
        Justified lib.segment lib.numericDate (file.binds Go.Binds) (Go.VerifiesUnder lib) token
          (Go.expectedAudience self audience) now (Go.effectiveLeeway leeway) caller) :=
  ⟨Py.justified_of_verify, Ts.justified_of_verify, Go.justified_of_verify⟩

/-! ### One token -/

namespace Sample

def sender : SpiffeId := ⟨"a.b", "/x"⟩
def receiver : SpiffeId := ⟨"a.b", "/y"⟩

def headerText : String := "eyJhbGciOiJFUzI1NiIsInR5cCI6IkpXVCIsImtpZCI6ImsxIn0"

def header : Members := [("alg", .str "ES256"), ("typ", .str "JWT"), ("kid", .str "k1")]

def payloadText : String :=
  "eyJzdWIiOiJzcGlmZmU6Ly9hLmIveCIsImF1ZCI6InNwaWZmZTovL2EuYi95IiwiaWF0IjoxMDAwLCJleHAiOjEwNjB9"

def claims : Members :=
  [("sub", .str "spiffe://a.b/x"), ("aud", .str "spiffe://a.b/y"), ("iat", .int 1000),
    ("exp", .int 1060)]

def segment (text : String) : Option Json :=
  if text = headerText then some (.obj header)
  else if text = payloadText then some (.obj claims) else none

def token : String := headerText ++ "." ++ payloadText ++ ".c2ln"

def jwk : Members :=
  [("kty", .str "EC"), ("crv", .str "P-256"), ("x", .str "AQ"), ("y", .str "Ag"), ("kid", .str "k1")]

def bundleOf (jwks : List Json) : BundleFile :=
  .doc (document (.str "a.b") (AList.singleton "spiffe://a.b/x" jwks))

def file : BundleFile := bundleOf [.obj jwk]

/-- A library that accepts this one signature, under whatever loads. -/
def pyJwtWith (fromDict : Members → Except Py.LibExn Unit) : Py.PyJwt :=
  Py.PyJwt.reference Unit segment fromDict (fun _ => true)
    (fun _ input signature => input = signingInput headerText payloadText && signature = "c2ln")
    (fun _ _ _ _ => token)

def pyJwt : Py.PyJwt := pyJwtWith fun _ => .ok ()

def node : Ts.Node where
  Key := Unit
  parseSegment := segment
  createPublicKey _ _ _ _ := some ()
  cryptoVerify _ input signature :=
    some (input = signingInput headerText payloadText && signature = "c2ln")
  writeSegment _ := payloadText
  sign _ _ := "c2ln"

def goJwt : Go.GoJwt :=
  Go.GoJwt.reference segment
    (fun key input signature =>
      key.x = 1 && key.y = 2 && input = signingInput headerText payloadText && signature = "c2ln")
    (fun _ _ _ => token)

theorem pyJwtWith_documented (fromDict : Members → Except Py.LibExn Unit) :
    (pyJwtWith fromDict).Documented :=
  Py.PyJwt.reference_documented ..

theorem pyJwt_documented : pyJwt.Documented := pyJwtWith_documented _

theorem goJwt_documented : goJwt.Documented := Go.GoJwt.reference_documented ..

theorem segments_token : segments token = [headerText, payloadText, "c2ln"] := by
  decide +kernel

theorem segment_header : segment headerText = some (.obj header) := if_pos rfl

theorem segment_payload : segment payloadText = some (.obj claims) := by
  simp [segment, payloadText, headerText]

theorem pyJwt_reads :
    pyJwt.Reads token headerText payloadText "c2ln" header claims :=
  ⟨segments_token, segment_header, segment_payload⟩

theorem goJwt_reads : goJwt.Reads token headerText payloadText "c2ln" header claims := by
  refine ⟨segments_token, segment_header, ?_⟩
  change (segment payloadText).bind Go.mapMembers = _
  rw [segment_payload]
  rfl

end Sample

theorem exists_of_isOk {ε α : Type} {r : Except ε α} (h : r.isOk = true) : ∃ a, r = .ok a := by
  cases r with
  | ok a => exact ⟨a, rfl⟩
  | error e => cases h

theorem verify_justified_sample :
    (∃ caller, Justified Sample.segment intDate (Sample.file.binds Binds)
      (Py.VerifiesUnder Sample.pyJwt) Sample.token "spiffe://a.b/y" 1010 30 caller) ∧
    (∃ caller, Justified Sample.segment Json.num? (Sample.file.binds Binds)
      (Ts.VerifiesUnder Sample.node) Sample.token "spiffe://a.b/y" 1010 30 caller) ∧
    ∃ caller, Justified Sample.segment intDate (Sample.file.binds Go.Binds)
      (Go.VerifiesUnder Sample.goJwt) Sample.token "spiffe://a.b/y" 1010 30 caller := by
  refine ⟨?_, ?_, ?_⟩
  · obtain ⟨caller, h⟩ := exists_of_isOk (r := Py.verify Sample.pyJwt Sample.receiver Sample.file
      1010 Sample.token none 30) (by decide +kernel)
    exact ⟨caller, verify_justified.1 Sample.pyJwt Sample.pyJwt_documented Sample.receiver
      Sample.file 1010 Sample.token none 30 caller h⟩
  · obtain ⟨caller, h⟩ := exists_of_isOk (r := Ts.verify Sample.node Sample.receiver Sample.file
      1010 Sample.token none 30) (by decide +kernel)
    exact ⟨caller, verify_justified.2.1 Sample.node Sample.receiver Sample.file 1010 Sample.token
      none 30 caller h⟩
  · obtain ⟨caller, h⟩ := exists_of_isOk (r := Go.verify Sample.goJwt Sample.receiver Sample.file
      1010 Sample.token "" 30) (by decide +kernel)
    exact ⟨caller, verify_justified.2.2 Sample.goJwt Sample.goJwt_documented Sample.receiver
      Sample.file 1010 Sample.token "" 30 caller h⟩

/-- With a leeway of zero the Go verifier accepts a token that expired ten
seconds ago. -/
theorem go_verify_zero_leeway :
    ∃ caller, Go.verify Sample.goJwt Sample.receiver Sample.file 1070 Sample.token "" 0 = .ok caller ∧
      ¬ Justified Sample.segment intDate (Sample.file.binds Go.Binds)
        (Go.VerifiesUnder Sample.goJwt) Sample.token "spiffe://a.b/y" 1070 0 caller := by
  obtain ⟨caller, h⟩ := exists_of_isOk (r := Go.verify Sample.goJwt Sample.receiver Sample.file
    1070 Sample.token "" 0) (by decide +kernel)
  refine ⟨caller, h, ?_⟩
  rintro ⟨hd, p, s, header, claims, sub, hseg, -, -, hpay, -, -, -, -, -, ⟨v, e, hexp, hdate, hle⟩, -⟩
  rw [Sample.segments_token] at hseg
  cases hseg
  rw [Sample.segment_payload] at hpay
  cases hpay
  have hv : Members.get? Sample.claims "exp" = some (.int 1060) := by
    simp [Sample.claims, Members.get?]
  rw [hv] at hexp
  cases hexp
  simp only [intDate, Option.some.injEq] at hdate
  subst hdate
  norm_num at hle

end Spiffile
