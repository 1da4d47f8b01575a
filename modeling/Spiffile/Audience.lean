import Spiffile.VerifySound

/-!
# The unverified audience

`unverified_audience` of `identity.py`, `unverifiedAudience` of `identity.ts`
and `UnverifiedAudience` of `identity.go`. Two of them ask a library for the
claims, which wants a header too; the third looks at the payload alone.
-/

namespace Spiffile

namespace Py

inductive AudienceFault where
  | malformed (e : String)
  | notString
  | lib (e : LibExn)

/-- The text of an `InvalidTokenError`; another exception passes through. -/
def AudienceFault.text : AudienceFault → Option String
  | .malformed e => some ("malformed token: " ++ e)
  | .notString => some "aud must be a single string audience"
  | .lib _ => none

def unverifiedAudience (lib : PyJwt) (token : String) : Except AudienceFault (Option String) :=
  match lib.decodeUnverified token with
  | .error (.pyJwt e) => .error (.malformed e.text)
  | .error e => .error (.lib e)
  | .ok unverified =>
    match Members.get? unverified "aud" with
    | none => .ok none
    | some .null => .ok none
    | some (.str aud) => .ok (some aud)
    | some _ => .error .notString

/-- The claims of a token with a header that the library takes; it decodes the
signature segment as well. -/
def PyJwt.Gives (lib : PyJwt) (takes : Members → String → Prop) (token : String) (claims : Members) :
    Prop :=
  ∃ h p s header, lib.Reads token h p s header claims ∧ takes header s

/-- What unverified decoding gives. -/
def PyJwt.DecodesUnverified (lib : PyJwt) (takes : Members → String → Prop) : Prop :=
  ∀ token claims, lib.decodeUnverified token = .ok claims ↔ lib.Gives takes token claims

/-- The token shows this `aud`, or none, to the function. -/
def PyJwt.Shows (lib : PyJwt) (takes : Members → String → Prop) (token : String)
    (aud : Option Json) : Prop :=
  ∃ claims, lib.Gives takes token claims ∧ Members.get? claims "aud" = aud

end Py

namespace Ts

inductive AudienceFault where
  | segments
  | malformed
  | notString
  | typeError

def AudienceFault.text : AudienceFault → Option String
  | .segments => some "malformed token: expected three dot-separated segments"
  | .malformed => some "malformed token: "
  | .notString => some "aud must be a single string audience"
  | .typeError => none

def unverifiedAudience (node : Node) (token : String) : Except AudienceFault (Option String) :=
  match segments token with
  | [_, payloadText, _] =>
    match node.parseSegment payloadText with
    | none => .error .malformed
    | some claims =>
      match Json.jsProp? claims "aud" with
      | none => .error .typeError
      | some none => .ok none
      | some (some .null) => .ok none
      | some (some (.str aud)) => .ok (some aud)
      | some (some _) => .error .notString
  | _ => .error .segments

/-- The payload, whatever the header is, has the property. -/
def Node.Shows (node : Node) (token : String) (aud : Option Json) : Prop :=
  ∃ h p s payload, segments token = [h, p, s] ∧ node.parseSegment p = some payload ∧
    Json.jsProp? payload "aud" = some aud

end Ts

namespace Go

inductive AudienceFault where
  | malformed (e : String)
  | notString

def AudienceFault.text : AudienceFault → String
  | .malformed e => "malformed token: " ++ e
  | .notString => "aud must be a single string audience"

/-- A missing audience is the empty string. -/
def unverifiedAudience (lib : GoJwt) (token : String) : Except AudienceFault String :=
  match lib.parseUnverified token with
  | .error e => .error (.malformed e)
  | .ok (_, claims) =>
    match Members.get? claims "aud" with
    | none => .ok ""
    | some (.str aud) => .ok aud
    | some _ => .error .notString

/-- Here the header must name a registered method, and `null` is a payload
without claims. -/
def GoJwt.Gives (lib : GoJwt) (takes : Members → Prop) (token : String) (claims : Members) : Prop :=
  ∃ h p s header, lib.Reads token h p s header claims ∧ takes header

def GoJwt.DecodesUnverified (lib : GoJwt) (takes : Members → Prop) : Prop :=
  ∀ token claims, (∃ header, lib.parseUnverified token = .ok (header, claims)) ↔
    lib.Gives takes token claims

def GoJwt.Shows (lib : GoJwt) (takes : Members → Prop) (token : String) (aud : Option Json) : Prop :=
  ∃ claims, lib.Gives takes token claims ∧ Members.get? claims "aud" = aud

end Go

/-! ### Outcomes -/

/-- The claim is missing, or it is `null`. -/
def MissingOrNull (aud : Option Json) : Prop := aud = none ∨ aud = some .null

namespace Py

variable {lib : PyJwt} {takes : Members → String → Prop} (hlib : lib.DecodesUnverified takes)
  {token : String}

include hlib

theorem unverifiedAudience_some {aud : String} :
    unverifiedAudience lib token = .ok (some aud) ↔ lib.Shows takes token (some (.str aud)) := by
  simp only [PyJwt.Shows, ← hlib token]
  unfold unverifiedAudience
  split
  · next h => simp [h]
  · next h => simp [h]
  · next c h =>
    split
    all_goals simp_all

theorem unverifiedAudience_none :
    unverifiedAudience lib token = .ok none ↔
      ∃ aud, lib.Shows takes token aud ∧ MissingOrNull aud := by
  simp only [PyJwt.Shows, ← hlib token]
  unfold unverifiedAudience MissingOrNull
  split
  · next h => simp [h]
  · next h => simp [h]
  · next c h =>
    split
    all_goals simp_all

theorem unverifiedAudience_error :
    (∃ e, unverifiedAudience lib token = .error e) ↔
      ∀ aud, lib.Shows takes token aud → absentOrString aud = false := by
  simp only [PyJwt.Shows, ← hlib token]
  unfold unverifiedAudience
  split
  · next h => simp [h]
  · next h => simp [h]
  · next c h =>
    split
    all_goals simp_all [absentOrString]

end Py

namespace Ts

variable {node : Node} {token : String}

theorem shows_of_segments {h p s : String} (hseg : segments token = [h, p, s]) (aud : Option Json) :
    node.Shows token aud ↔ (node.parseSegment p).bind (Json.jsProp? · "aud") = some aud := by
  constructor
  · rintro ⟨h', p', s', payload, hseg', hpay, hprop⟩
    rw [hseg] at hseg'
    cases hseg'
    rw [hpay]
    exact hprop
  · intro hbind
    obtain ⟨payload, hpay, hprop⟩ := Option.bind_eq_some_iff.mp hbind
    exact ⟨h, p, s, payload, hseg, hpay, hprop⟩

/-- What the function finds, and what it makes of it. -/
theorem unverifiedAudience_cases (node : Node) (token : String) :
    (∃ e, unverifiedAudience node token = .error e) ∧ (∀ aud, ¬ node.Shows token aud) ∨
    ∃ aud, node.Shows token aud ∧ (∀ other, node.Shows token other → other = aud) ∧
      (MissingOrNull aud ∧ unverifiedAudience node token = .ok none ∨
        (∃ text, aud = some (.str text) ∧ unverifiedAudience node token = .ok (some text)) ∨
        Py.absentOrString aud = false ∧ ∃ e, unverifiedAudience node token = .error e) := by
  unfold unverifiedAudience
  split
  · next h p s hseg =>
    have hshows : ∀ aud, node.Shows token aud ↔ _ := shows_of_segments hseg
    split
    · next hnone => exact Or.inl ⟨⟨_, rfl⟩, fun aud => by simp [hshows, hnone]⟩
    · next payload hpay =>
      have hunique : ∀ {aud}, Json.jsProp? payload "aud" = some aud →
          node.Shows token aud ∧ ∀ other, node.Shows token other → other = aud := by
        intro aud haud
        simp [hshows, hpay, haud]
      split
      · next hprop => exact Or.inl ⟨⟨_, rfl⟩, fun aud => by simp [hshows, hpay, hprop]⟩
      · next hprop =>
        exact Or.inr ⟨_, (hunique hprop).1, (hunique hprop).2, Or.inl ⟨Or.inl rfl, rfl⟩⟩
      · next hprop =>
        exact Or.inr ⟨_, (hunique hprop).1, (hunique hprop).2, Or.inl ⟨Or.inr rfl, rfl⟩⟩
      · next text hprop =>
        exact Or.inr ⟨_, (hunique hprop).1, (hunique hprop).2, Or.inr (Or.inl ⟨text, rfl, rfl⟩)⟩
      · next v hnull hstr hprop =>
        refine Or.inr ⟨_, (hunique hprop).1, (hunique hprop).2, Or.inr (Or.inr ⟨?_, _, rfl⟩)⟩
        cases v with
        | null => exact absurd rfl hnull
        | str text => exact absurd rfl (hstr text)
        | _ => rfl
  · next hseg =>
    refine Or.inl ⟨⟨_, rfl⟩, ?_⟩
    rintro aud ⟨h, p, s, payload, hseg', -⟩
    exact hseg h p s hseg'

theorem unverifiedAudience_some {aud : String} :
    unverifiedAudience node token = .ok (some aud) ↔ node.Shows token (some (.str aud)) := by
  rcases unverifiedAudience_cases node token with ⟨⟨e, he⟩, hnone⟩ | ⟨found, hshows, hunique, h⟩
  · simp [he, hnone]
  · rcases h with ⟨hmissing, hr⟩ | ⟨text, rfl, hr⟩ | ⟨hbad, e, hr⟩
    · rw [hr]
      refine ⟨fun h => by simp at h, fun h => ?_⟩
      obtain rfl := hunique _ h
      rcases hmissing with h | h <;> cases h
    · rw [hr]
      constructor
      · intro h
        cases h
        exact hshows
      · intro h
        cases hunique _ h
        rfl
    · rw [hr]
      refine ⟨fun h => by simp at h, fun h => ?_⟩
      obtain rfl := hunique _ h
      cases hbad

theorem unverifiedAudience_none :
    unverifiedAudience node token = .ok none ↔ ∃ aud, node.Shows token aud ∧ MissingOrNull aud := by
  rcases unverifiedAudience_cases node token with ⟨⟨e, he⟩, hnone⟩ | ⟨found, hshows, hunique, h⟩
  · simp [he, hnone]
  · rcases h with ⟨hmissing, hr⟩ | ⟨text, rfl, hr⟩ | ⟨hbad, e, hr⟩
    · exact ⟨fun _ => ⟨found, hshows, hmissing⟩, fun _ => hr⟩
    · rw [hr]
      refine ⟨fun h => by simp at h, fun ⟨aud, haud, hmissing⟩ => ?_⟩
      obtain rfl := hunique _ haud
      rcases hmissing with h | h <;> cases h
    · rw [hr]
      refine ⟨fun h => by simp at h, fun ⟨aud, haud, hmissing⟩ => ?_⟩
      obtain rfl := hunique _ haud
      rcases hmissing with rfl | rfl <;> cases hbad

theorem unverifiedAudience_error :
    (∃ e, unverifiedAudience node token = .error e) ↔
      ∀ aud, node.Shows token aud → Py.absentOrString aud = false := by
  rcases unverifiedAudience_cases node token with ⟨he, hnone⟩ | ⟨found, hshows, hunique, h⟩
  · exact ⟨fun _ aud haud => absurd haud (hnone aud), fun _ => he⟩
  · rcases h with ⟨hmissing, hr⟩ | ⟨text, rfl, hr⟩ | ⟨hbad, he⟩
    · rw [hr]
      refine ⟨fun ⟨_, h⟩ => by simp at h, fun h => ?_⟩
      have hbad := h _ hshows
      rcases hmissing with rfl | rfl <;> cases hbad
    · rw [hr]
      refine ⟨fun ⟨_, h⟩ => by simp at h, fun h => ?_⟩
      cases h _ hshows
    · refine ⟨fun _ aud haud => ?_, fun _ => he⟩
      rw [hunique _ haud, hbad]

end Ts

namespace Go

variable {lib : GoJwt} {takes : Members → Prop} (hlib : lib.DecodesUnverified takes) {token : String}

include hlib

/-- A missing audience and an empty one are the same answer. -/
theorem unverifiedAudience_ok {aud : String} :
    unverifiedAudience lib token = .ok aud ↔
      lib.Shows takes token (some (.str aud)) ∨ aud = "" ∧ lib.Shows takes token none := by
  simp only [GoJwt.Shows, ← hlib token]
  unfold unverifiedAudience
  split
  · next h => simp [h]
  · next header c h =>
    split
    all_goals simp_all

theorem unverifiedAudience_error :
    (∃ e, unverifiedAudience lib token = .error e) ↔
      ∀ aud, lib.Shows takes token aud → absentOrString aud = false := by
  simp only [GoJwt.Shows, ← hlib token]
  unfold unverifiedAudience
  split
  · next h => simp [h]
  · next header c h =>
    split
    all_goals simp_all [absentOrString]

end Go

/-! ### Agreement -/

/-- All return one string, all report a missing audience, or all refuse. -/
def SameAudience {ε₁ ε₂ ε₃ : Type} (py : Except ε₁ (Option String)) (ts : Except ε₂ (Option String))
    (go : Except ε₃ String) : Prop :=
  (∃ aud, py = .ok (some aud) ∧ ts = .ok (some aud) ∧ go = .ok aud) ∨
    (py = .ok none ∧ ts = .ok none ∧ go = .ok "") ∨
    (∃ e, py = .error e) ∧ (∃ e, ts = .error e) ∧ ∃ e, go = .error e

/-- What the three must be shown: the same string, no audience at all, or
nothing that any of them takes for one. -/
inductive ShowsAlike (py ts go : Option Json → Prop) : Prop where
  | text (aud : String) : py (some (.str aud)) → ts (some (.str aud)) →
      go (some (.str aud)) ∨ aud = "" ∧ go none → ShowsAlike py ts go
  | missing (a b : Option Json) : py a → MissingOrNull a → ts b → MissingOrNull b →
      go none ∨ go (some (.str "")) → ShowsAlike py ts go
  | unusable : (∀ a, py a → Py.absentOrString a = false) →
      (∀ a, ts a → Py.absentOrString a = false) → (∀ a, go a → Go.absentOrString a = false) →
      ShowsAlike py ts go

section

variable {lib : Py.PyJwt} {node : Ts.Node} {goLib : Go.GoJwt} {takes : Members → String → Prop}
  {goTakes : Members → Prop}

theorem sameAudience_iff (hlib : lib.DecodesUnverified takes) (hgo : goLib.DecodesUnverified goTakes)
    (token : String) :
    SameAudience (Py.unverifiedAudience lib token) (Ts.unverifiedAudience node token)
        (Go.unverifiedAudience goLib token) ↔
      ShowsAlike (lib.Shows takes token) (node.Shows token) (goLib.Shows goTakes token) := by
  unfold SameAudience
  simp only [Py.unverifiedAudience_some hlib, Py.unverifiedAudience_none hlib,
    Py.unverifiedAudience_error hlib, Ts.unverifiedAudience_some, Ts.unverifiedAudience_none,
    Ts.unverifiedAudience_error, Go.unverifiedAudience_ok hgo, Go.unverifiedAudience_error hgo]
  constructor
  · rintro (⟨aud, hpy, hts, hgo⟩ | ⟨⟨a, ha, hma⟩, ⟨b, hb, hmb⟩, hgo⟩ | ⟨hpy, hts, hgo⟩)
    · exact .text aud hpy hts hgo
    · exact .missing a b ha hma hb hmb (hgo.elim Or.inr fun h => Or.inl h.2)
    · exact .unusable hpy hts hgo
  · intro h
    cases h with
    | text aud hpy hts hgo => exact Or.inl ⟨aud, hpy, hts, hgo⟩
    | missing a b ha hma hb hmb hgo =>
      exact Or.inr (Or.inl ⟨⟨a, ha, hma⟩, ⟨b, hb, hmb⟩, hgo.elim (fun h => Or.inr ⟨trivial, h⟩) Or.inl⟩)
    | unusable hpy hts hgo => exact Or.inr (Or.inr ⟨hpy, hts, hgo⟩)

variable {token : String}

/-- On one payload object under a header that both libraries take, `null` alone
is answered differently. -/
theorem sameAudience_iff_not_null (hlib : lib.DecodesUnverified takes)
    (hgo : goLib.DecodesUnverified goTakes) {h p s : String} {header goHeader claims : Members}
    (hpy : lib.Reads token h p s header claims) (htakes : takes header s)
    (hts : node.parseSegment p = some (.obj claims))
    (hgoReads : goLib.Reads token h p s goHeader claims) (hgoTakes : goTakes goHeader) :
    SameAudience (Py.unverifiedAudience lib token) (Ts.unverifiedAudience node token)
        (Go.unverifiedAudience goLib token) ↔ Members.get? claims "aud" ≠ some .null := by
  have hpyShows : ∀ a, lib.Shows takes token a ↔ Members.get? claims "aud" = a := by
    intro a
    constructor
    · rintro ⟨c, hc, ha⟩
      have hsame := ((hlib token c).mpr hc).symm.trans
        ((hlib token claims).mpr ⟨h, p, s, header, hpy, htakes⟩)
      cases hsame
      exact ha
    · intro ha
      exact ⟨claims, ⟨h, p, s, header, hpy, htakes⟩, ha⟩
  have htsShows : ∀ a, node.Shows token a ↔ Members.get? claims "aud" = a := by
    intro a
    rw [Ts.shows_of_segments hpy.1, hts]
    exact Option.some_inj
  have hgoShows : ∀ a, goLib.Shows goTakes token a ↔ Members.get? claims "aud" = a := by
    intro a
    constructor
    · rintro ⟨c, ⟨h', p', s', header', ⟨hseg, -, hpay⟩, -⟩, ha⟩
      rw [hgoReads.1] at hseg
      cases hseg
      rw [hgoReads.2.2] at hpay
      cases hpay
      exact ha
    · intro ha
      exact ⟨claims, ⟨h, p, s, goHeader, hgoReads, hgoTakes⟩, ha⟩
  rw [sameAudience_iff hlib hgo token, funext fun a => propext (hpyShows a),
    funext fun a => propext (htsShows a), funext fun a => propext (hgoShows a)]
  generalize Members.get? claims "aud" = aud
  constructor
  · rintro hclear rfl
    cases hclear with
    | text aud hpy _ _ => cases hpy
    | missing a b _ _ _ _ hgo => rcases hgo with h | h <;> cases h
    | unusable hpy _ _ => cases hpy _ rfl
  · intro hnull
    cases aud with
    | none => exact .missing none none rfl (Or.inl rfl) rfl (Or.inl rfl) (Or.inl rfl)
    | some v =>
      cases v with
      | null => exact absurd rfl hnull
      | str aud => exact .text aud rfl rfl (Or.inl rfl)
      | _ =>
        refine .unusable ?_ ?_ ?_
        all_goals
          rintro _ rfl
          rfl

/-- An accepted token has been decoded without a check before. -/
theorem py_audience_of_verify (hdoc : lib.Documented) (hlib : lib.DecodesUnverified takes)
    {self : SpiffeId} {file : BundleFile} {now leeway : ℚ} {audience : Option String}
    {caller : Caller} (h : Py.verify lib self file now token audience leeway = .ok caller) :
    Py.unverifiedAudience lib token = .ok (some (Py.expectedAudience self audience)) := by
  obtain ⟨hd, p, s, -, claims, -, hseg, -, -, hpay, -, -, -, -, haud, -, -⟩ :=
    Py.justified_of_verify lib hdoc self file now token audience leeway caller h
  unfold Py.verify at h
  obtain ⟨header, -, h⟩ := bind_eq_ok h
  obtain ⟨unverified, hunverified, -⟩ := bind_eq_ok h
  have hdecoded := Py.orMalformed_eq_ok hunverified
  obtain ⟨hd', p', s', hseg', hpay'⟩ := hdoc.unverified_ok _ _ hdecoded
  rw [hseg] at hseg'
  cases hseg'
  rw [hpay] at hpay'
  cases hpay'
  exact (Py.unverifiedAudience_some hlib).mpr ⟨claims, (hlib token claims).mp hdecoded, haud⟩

theorem ts_audience_of_verify {self : SpiffeId} {file : BundleFile} {now leeway : ℚ}
    {audience : Option String} {caller : Caller}
    (h : Ts.verify node self file now token audience leeway = .ok caller) :
    Ts.unverifiedAudience node token = .ok (some (Ts.expectedAudience self audience)) := by
  obtain ⟨hd, p, s, -, claims, -, hseg, -, -, hpay, -, -, -, -, haud, -, -⟩ :=
    Ts.justified_of_verify node self file now token audience leeway caller h
  refine Ts.unverifiedAudience_some.mpr ⟨hd, p, s, .obj claims, hseg, hpay, ?_⟩
  exact congrArg some haud

theorem go_audience_of_verify (hdoc : goLib.Documented) (hgo : goLib.DecodesUnverified goTakes)
    {self : SpiffeId} {file : BundleFile} {now leeway : ℚ} {audience : String} {caller : Caller}
    (h : Go.verify goLib self file now token audience leeway = .ok caller) :
    Go.unverifiedAudience goLib token = .ok (Go.expectedAudience self audience) := by
  obtain ⟨hd, p, s, -, claims, -, hseg, -, -, hpay, -, -, -, -, haud, -, -⟩ :=
    Go.justified_of_verify goLib hdoc self file now token audience leeway caller h
  unfold Go.verify at h
  obtain ⟨⟨header, unverified⟩, hunverified, -⟩ := bind_eq_ok h
  have hdecoded := Go.orElse_eq_ok hunverified
  obtain ⟨hd', p', s', hseg', -, hpay'⟩ := hdoc.unverified_ok _ _ _ hdecoded
  rw [hseg] at hseg'
  cases hseg'
  rw [hpay] at hpay'
  cases hpay'
  exact (Go.unverifiedAudience_ok hgo).mpr
    (Or.inl ⟨claims, (hgo token claims).mp ⟨header, hdecoded⟩, haud⟩)

end

/-- In each implementation, whoever accepts the token for an audience finds that
audience in it before. An audience that is not stated is the verifier's own ID. -/
def ToldBefore (lib : Py.PyJwt) (node : Ts.Node) (goLib : Go.GoJwt) (token : String) : Prop :=
  (∀ self file now audience leeway caller,
    Py.verify lib self file now token audience leeway = .ok caller →
      Py.unverifiedAudience lib token = .ok (some (Py.expectedAudience self audience))) ∧
  (∀ self file now audience leeway caller,
    Ts.verify node self file now token audience leeway = .ok caller →
      Ts.unverifiedAudience node token = .ok (some (Ts.expectedAudience self audience))) ∧
  ∀ self file now audience leeway caller,
    Go.verify goLib self file now token audience leeway = .ok caller →
      Go.unverifiedAudience goLib token = .ok (Go.expectedAudience self audience)

/-- The audience never contradicts verification. The implementations agree on it
exactly for the tokens that show each of them the same. -/
theorem unverified_audience_iff {lib : Py.PyJwt} (hdoc : lib.Documented) {goLib : Go.GoJwt}
    (hgoDoc : goLib.Documented) (node : Ts.Node) {takes : Members → String → Prop}
    (hlib : lib.DecodesUnverified takes) {goTakes : Members → Prop}
    (hgo : goLib.DecodesUnverified goTakes) (token : String) :
    (SameAudience (Py.unverifiedAudience lib token) (Ts.unverifiedAudience node token)
        (Go.unverifiedAudience goLib token) ∧ ToldBefore lib node goLib token) ↔
      ShowsAlike (lib.Shows takes token) (node.Shows token) (goLib.Shows goTakes token) := by
  rw [sameAudience_iff hlib hgo token]
  refine and_iff_left ⟨?_, ?_, ?_⟩
  · intro self file now audience leeway caller h
    exact py_audience_of_verify hdoc hlib h
  · intro self file now audience leeway caller h
    exact ts_audience_of_verify h
  · intro self file now audience leeway caller h
    exact go_audience_of_verify hgoDoc hgo h

/-! ### Headers and null -/

theorem Py.PyJwt.reference_decodesUnverified (Key : Type) (segment : String → Option Json)
    (fromDict : Members → Except LibExn Key) (isEc : Key → Bool)
    (verifies : Key → String → String → Bool)
    (encode : Members → Point → String → Members → String) :
    (PyJwt.reference Key segment fromDict isEc verifies encode).DecodesUnverified
      fun _ _ => True := by
  set lib := PyJwt.reference Key segment fromDict isEc verifies encode with hlib
  intro token claims
  have hread := readToken_eq_some lib token
  constructor
  · intro hok
    cases hr : readToken segment token with
    | none => simp [hlib, PyJwt.reference, hr] at hok
    | some r =>
      obtain ⟨h, p, s, header, claims'⟩ := r
      simp only [hlib, PyJwt.reference, hr, Except.ok.injEq] at hok
      subst hok
      exact ⟨h, p, s, header, (hread h p s header claims').mp hr, trivial⟩
  · rintro ⟨h, p, s, header, hr, -⟩
    have he : readToken segment token = _ := (hread h p s header claims).mpr hr
    simp [hlib, PyJwt.reference, he]

theorem Go.GoJwt.reference_decodesUnverified (segment : String → Option Json)
    (verifies : PublicKey → String → String → Bool)
    (signedString : Members → Members → Point → String) :
    (GoJwt.reference segment verifies signedString).DecodesUnverified fun _ => True := by
  set lib := GoJwt.reference segment verifies signedString with hlib
  intro token claims
  have hread := readToken_eq_some lib token
  constructor
  · rintro ⟨header, hok⟩
    cases hr : readToken segment token with
    | none => simp [hlib, GoJwt.reference, hr] at hok
    | some r =>
      obtain ⟨h, p, s, header', claims'⟩ := r
      simp only [hlib, GoJwt.reference, hr, Except.ok.injEq, Prod.mk.injEq] at hok
      obtain ⟨rfl, rfl⟩ := hok
      exact ⟨h, p, s, header', (hread h p s header' claims').mp hr, trivial⟩
  · rintro ⟨h, p, s, header, hr, -⟩
    have he : readToken segment token = _ := (hread h p s header claims).mpr hr
    exact ⟨header, by simp [hlib, GoJwt.reference, he]⟩

namespace Sample

theorem pyJwt_decodes : pyJwt.DecodesUnverified fun _ _ => True :=
  Py.PyJwt.reference_decodesUnverified _ _ _ _ _ _

theorem goJwt_decodes : goJwt.DecodesUnverified fun _ => True :=
  Go.GoJwt.reference_decodesUnverified _ _ _

/-- The payload object with a `null` audience. -/
def nullText : String := "eyJhdWQiOm51bGx9"

def nullToken : String := headerText ++ "." ++ nullText ++ ".c2ln"

/-- The header segment is no base64url. -/
def headlessToken : String := "*." ++ payloadText ++ ".c2ln"

def nullSegment (text : String) : Option Json :=
  if text = nullText then some (.obj [("aud", .null)]) else segment text

def nullPyJwt : Py.PyJwt :=
  Py.PyJwt.reference Unit nullSegment (fun _ => .ok ()) (fun _ => true) (fun _ _ _ => true)
    fun _ _ _ _ => token

def nullGoJwt : Go.GoJwt := Go.GoJwt.reference nullSegment (fun _ _ _ => true) fun _ _ _ => token

def nullNode : Ts.Node := { node with parseSegment := nullSegment }

end Sample

theorem unverified_audience_iff_sample :
    SameAudience (Py.unverifiedAudience Sample.pyJwt Sample.token)
      (Ts.unverifiedAudience Sample.node Sample.token)
      (Go.unverifiedAudience Sample.goJwt Sample.token) := by
  have haud : Members.get? Sample.claims "aud" = some (.str "spiffe://a.b/y") := rfl
  refine ((unverified_audience_iff Sample.pyJwt_documented Sample.goJwt_documented Sample.node
    Sample.pyJwt_decodes Sample.goJwt_decodes Sample.token).mpr (.text "spiffe://a.b/y" ?_ ?_
      (Or.inl ?_))).1
  · exact ⟨Sample.claims, ⟨_, _, _, _, Sample.pyJwt_reads, trivial⟩, haud⟩
  · exact ⟨_, _, _, .obj Sample.claims, Sample.segments_token, Sample.segment_payload,
      congrArg some haud⟩
  · exact ⟨Sample.claims, ⟨_, _, _, _, Sample.goJwt_reads, trivial⟩, haud⟩

/-- Go takes a `null` audience for one that is no string; TypeScript finds an
audience under a header that cannot be decoded. -/
theorem audiences_differ :
    (Sample.nullPyJwt.DecodesUnverified (fun _ _ => True) ∧
      Sample.nullGoJwt.DecodesUnverified fun _ => True) ∧
    ¬ SameAudience (Py.unverifiedAudience Sample.nullPyJwt Sample.nullToken)
      (Ts.unverifiedAudience Sample.nullNode Sample.nullToken)
      (Go.unverifiedAudience Sample.nullGoJwt Sample.nullToken) ∧
    ¬ SameAudience (Py.unverifiedAudience Sample.nullPyJwt Sample.headlessToken)
      (Ts.unverifiedAudience Sample.nullNode Sample.headlessToken)
      (Go.unverifiedAudience Sample.nullGoJwt Sample.headlessToken) := by
  refine ⟨⟨Py.PyJwt.reference_decodesUnverified _ _ _ _ _ _, Go.GoJwt.reference_decodesUnverified _ _ _⟩, ?_, ?_⟩
  · have hpy : Py.unverifiedAudience Sample.nullPyJwt Sample.nullToken = .ok none := rfl
    have hgo : Go.unverifiedAudience Sample.nullGoJwt Sample.nullToken = .error .notString := rfl
    rw [SameAudience, hpy, hgo]
    simp
  · have hts : Ts.unverifiedAudience Sample.nullNode Sample.headlessToken =
        .ok (some "spiffe://a.b/y") := rfl
    have hgo : Go.unverifiedAudience Sample.nullGoJwt Sample.headlessToken =
        .error (.malformed "token is malformed") := rfl
    rw [SameAudience, hts, hgo]
    simp

end Spiffile
