import Spiffile.Authenticity
import Spiffile.Reload

/-!
# Verifiers that keep their bundle

A process verifies through a bundle source that it keeps, while the tools work on
the root. Its verdict is that of a verifier which reads the file at an instant of
the call, so a revocation reaches it with the next call.
-/

namespace Spiffile

open FileTree StampCache

/-! ### `verify` with the answer of its source -/

namespace Py

def verifyWith (lib : PyJwt) (self : SpiffeId) (source : Except Exn (Bundle Json)) (now : ℚ)
    (token : String) (audience : Option String) (leeway : ℚ) : Except Exn Caller := do
  let header ← orMalformed (lib.getUnverifiedHeader token)
  let unverified ← orMalformed (lib.decodeUnverified token)
  let claimedSub := (Members.get? unverified "sub").getD .null
  ensure claimedSub.pyTruthy (.invalidToken .noSub)
  let claimedId ← parseClaim claimedSub
  ensure (absentOrString (Members.get? unverified "aud")) (.invalidToken .audNotString)
  let bundle ← source
  let boundJwks ← keysFor bundle claimedId.toString
  let candidates ← candidates boundJwks (Members.get? header "kid")
  tryCandidates lib token (verifyOptions (expectedAudience self audience) leeway) now claimedId
    none candidates

theorem verifyWith_readBundle (lib : PyJwt) (self : SpiffeId) (file : BundleFile) (now : ℚ)
    (token : String) (audience : Option String) (leeway : ℚ) :
    verifyWith lib self (readBundle file) now token audience leeway =
      verify lib self file now token audience leeway := rfl

theorem verifyWith_eq_ok {lib : PyJwt} {self : SpiffeId} {source : Except Exn (Bundle Json)}
    {now leeway : ℚ} {token : String} {audience : Option String} {caller : Caller}
    (h : verifyWith lib self source now token audience leeway = .ok caller) : ∃ b, source = .ok b := by
  iterate 5 obtain ⟨_, -, h⟩ := bind_eq_ok h
  obtain ⟨b, hb, -⟩ := bind_eq_ok h
  exact ⟨b, hb⟩

end Py

namespace Ts

def verifyParsedWith (node : Node) (self : SpiffeId) (source : Except Exn (Bundle String)) (now : ℚ)
    (input signatureText : String) (header claims : Json) (audience : Option String) (leeway : ℚ) :
    Except Exn Caller := do
  checkAlgorithm (← prop header "alg")
  let claimedSub ← checkSub (← prop claims "sub")
  let claimedId ← parseSub claimedSub
  ensure (Json.jsStrictEq (← prop claims "aud") (some (.str (expectedAudience self audience))))
    (.invalidToken .audience)
  checkExp (← prop claims "exp") leeway now
  checkIat (← prop claims "iat") leeway now
  let bundle ← source
  let boundJwks ← keysFor bundle claimedId.toString
  let candidates ← candidates boundJwks (← prop header "kid")
  tryCandidates node input signatureText claimedId claims candidates

def verifyWith (node : Node) (self : SpiffeId) (source : Except Exn (Bundle String)) (now : ℚ)
    (token : String) (audience : Option String) (leeway : ℚ) : Except Exn Caller :=
  match segments token with
  | [headerText, payloadText, signatureText] => do
    let header ← parsed (node.parseSegment headerText)
    let claims ← parsed (node.parseSegment payloadText)
    verifyParsedWith node self source now (signingInput headerText payloadText) signatureText header
      claims audience leeway
  | _ => .error (.invalidToken .segments)

theorem verifyWith_sourceGet (node : Node) (self : SpiffeId) (file : BundleFile) (now : ℚ)
    (token : String) (audience : Option String) (leeway : ℚ) :
    verifyWith node self (sourceGet file) now token audience leeway =
      verify node self file now token audience leeway := rfl

theorem verifyWith_eq_ok {node : Node} {self : SpiffeId} {source : Except Exn (Bundle String)}
    {now leeway : ℚ} {token : String} {audience : Option String} {caller : Caller}
    (h : verifyWith node self source now token audience leeway = .ok caller) :
    ∃ b, source = .ok b := by
  unfold verifyWith at h
  split at h
  · -- two segments, and the checks up to `iat`
    iterate 13 obtain ⟨_, -, h⟩ := bind_eq_ok h
    obtain ⟨b, hb, -⟩ := bind_eq_ok h
    exact ⟨b, hb⟩
  · cases h

end Ts

namespace Go

def verifyWith (lib : GoJwt) (self : SpiffeId) (source : Except Err (Bundle String)) (now : ℚ)
    (token audience : String) (leeway : ℚ) : Except Err Caller := do
  let unverified ← orElse (lib.parseUnverified token) .malformed
  let claimedSub ← claimedSubject lib unverified.2
  let claimedId ← orElse (parseSpiffeID claimedSub) .subNotId
  ensure (absentOrString (Members.get? unverified.2 "aud")) .audNotString
  let bundle ← source
  let boundJwks ← keysFor bundle claimedId.toString
  let candidates := candidateKeys boundJwks (headerKid unverified.1)
  ensure (!candidates.isEmpty) (.noUsableKeys claimedSub)
  tryCandidates lib token
    (verifyOptions (expectedAudience self audience) (effectiveLeeway leeway)) now claimedId
    claimedSub "" candidates

theorem verifyWith_readBundle (lib : GoJwt) (self : SpiffeId) (file : BundleFile) (now : ℚ)
    (token audience : String) (leeway : ℚ) :
    verifyWith lib self (readBundle file) now token audience leeway =
      verify lib self file now token audience leeway := rfl

theorem verifyWith_eq_ok {lib : GoJwt} {self : SpiffeId} {source : Except Err (Bundle String)}
    {now leeway : ℚ} {token audience : String} {caller : Caller}
    (h : verifyWith lib self source now token audience leeway = .ok caller) : ∃ b, source = .ok b := by
  iterate 4 obtain ⟨_, -, h⟩ := bind_eq_ok h
  obtain ⟨b, hb, -⟩ := bind_eq_ok h
  exact ⟨b, hb⟩

end Go

/-! ### A process and its source -/

section

variable {Self Stamp ε β : Type}

/-- In some run of the source, under a path that shows these files, a call
between the two instants got this answer. -/
def AnsweredIn (src : Source Self Stamp (Option Json) ε β) (files : ℕ → BundleFile)
    (start finish : ℕ) (answer : Except ε β) : Prop :=
  ∃ (ι : Type) (_ : DecidableEq ι) (T : Timeline Stamp (Option Json))
    (s : System ι Self Stamp (Option Json) ε β), (∀ n, bundleFileAt (T.file n) = files n) ∧
      Reachable src T s ∧ ⟨start, finish, answer⟩ ∈ s.log

variable {src : Source Self Stamp (Option Json) ε β} {readBundle : BundleFile → Except ε β}
  (hlin : Linearizable src readBundle) {files : ℕ → BundleFile} {start finish : ℕ}
  {answer : Except ε β} (h : AnsweredIn src files start finish answer)

include hlin h

theorem AnsweredIn.at_instant {b : β} (hb : answer = .ok b) :
    ∃ n, start ≤ n ∧ n ≤ finish ∧ readBundle (files n) = answer := by
  obtain ⟨ι, _, T, s, hfiles, hreach, hlog⟩ := h
  obtain ⟨n, hstart, hfinish, hread⟩ := hlin.returned hreach _ hlog b hb
  exact ⟨n, hstart, hfinish, (hfiles n ▸ hread).trans hb.symm⟩

theorem AnsweredIn.readable
    (hall : ∀ n, start ≤ n → n ≤ finish → ∃ b, readBundle (files n) = .ok b) : ∃ b, answer = .ok b := by
  obtain ⟨ι, _, T, s, hfiles, hreach, hlog⟩ := h
  exact hlin.recovers hreach _ hlog fun n hstart hfinish => by
    rw [hfiles n]
    exact hall n hstart hfinish

end

theorem py_linearizable : Linearizable Py.fileBundleSource Py.readBundle :=
  linearizable_of_reread py_reread fun b h => by cases h

theorem ts_linearizable (numbers : Ts.NumberText) :
    Linearizable (Ts.fileBundleSource numbers) Ts.sourceGet :=
  linearizable_of_reread (ts_reread numbers) fun b h => by cases h

theorem go_linearizable : Linearizable Go.fileBundleSource Go.readBundle :=
  linearizable_of_reread go_reread fun b h => by cases h

namespace Impl

/-- A process that keeps its source comes to this verdict on a token, between two
instants of the file. -/
def Decides (libs : Libs) (files : ℕ → BundleFile) (start finish : ℕ) (own : SpiffeId) (now : ℚ)
    (token : String) (audience : Option String) (leeway : ℚ) (verdict : Option Caller) : Impl → Prop
  | python => ∃ answer, AnsweredIn Py.fileBundleSource files start finish answer ∧
      verdict = (Py.verifyWith libs.py own answer now token audience leeway).toOption
  | typescript => ∃ numbers answer,
      AnsweredIn (Ts.fileBundleSource numbers) files start finish answer ∧
      verdict = (Ts.verifyWith libs.node own answer now token audience leeway).toOption
  | go => ∃ answer, AnsweredIn Go.fileBundleSource files start finish answer ∧
      verdict = (Go.verifyWith libs.go own answer now token (audience.getD "") leeway).toOption

/-- The reader finds a bundle. -/
def FindsBundle (file : BundleFile) : Impl → Prop
  | python => ∃ b, Py.readBundle file = .ok b
  | typescript => ∃ b, Ts.sourceGet file = .ok b
  | go => ∃ b, Go.readBundle file = .ok b

/-- What a cached source stands for: a source that reads at an instant. -/
theorem decides_of_answered {Self Stamp ε β : Type} {src : Source Self Stamp (Option Json) ε β}
    {readBundle : BundleFile → Except ε β} (hlin : Linearizable src readBundle)
    {files : ℕ → BundleFile} {start finish : ℕ} {answer : Except ε β}
    (h : AnsweredIn src files start finish answer) (verdict : Except ε β → Option Caller)
    (hfail : ∀ caller, verdict answer = some caller → ∃ b, answer = .ok b) :
    (∀ caller, verdict answer = some caller →
      ∃ n, start ≤ n ∧ n ≤ finish ∧ verdict (readBundle (files n)) = some caller) ∧
    ∀ v, (∀ n, start ≤ n → n ≤ finish → (∃ b, readBundle (files n) = .ok b) ∧
      verdict (readBundle (files n)) = v) → verdict answer = v := by
  refine ⟨fun caller hcaller => ?_, fun v hall => ?_⟩
  · obtain ⟨b, hb⟩ := hfail caller hcaller
    obtain ⟨n, hstart, hfinish, hread⟩ := h.at_instant hlin hb
    exact ⟨n, hstart, hfinish, hread ▸ hcaller⟩
  · obtain ⟨b, hb⟩ := h.readable hlin fun n hstart hfinish => (hall n hstart hfinish).1
    obtain ⟨n, hstart, hfinish, hread⟩ := h.at_instant hlin hb
    rw [← hread]
    exact (hall n hstart hfinish).2

end Impl

theorem Impl.Decides.follows {libs : Libs} {files : ℕ → BundleFile} {start finish : ℕ}
    {own : SpiffeId} {now leeway : ℚ} {token : String} {audience : Option String}
    {verdict : Option Caller} {verifier : Impl}
    (h : verifier.Decides libs files start finish own now token audience leeway verdict) :
    (∀ caller, verdict = some caller → ∃ n, start ≤ n ∧ n ≤ finish ∧
      verifier.verifyFor libs own (files n) now token audience leeway = some caller) ∧
    ∀ v, (∀ n, start ≤ n → n ≤ finish → verifier.FindsBundle (files n) ∧
      verifier.verifyFor libs own (files n) now token audience leeway = v) → verdict = v := by
  cases verifier with
  | python =>
    obtain ⟨answer, hanswer, rfl⟩ := h
    exact Impl.decides_of_answered py_linearizable hanswer
      (fun source => (Py.verifyWith libs.py own source now token audience leeway).toOption)
      fun caller hcaller => Py.verifyWith_eq_ok (toOption_eq_some hcaller)
  | typescript =>
    obtain ⟨numbers, answer, hanswer, rfl⟩ := h
    exact Impl.decides_of_answered (ts_linearizable numbers) hanswer
      (fun source => (Ts.verifyWith libs.node own source now token audience leeway).toOption)
      fun caller hcaller => Ts.verifyWith_eq_ok (toOption_eq_some hcaller)
  | go =>
    obtain ⟨answer, hanswer, rfl⟩ := h
    exact Impl.decides_of_answered go_linearizable hanswer
      (fun source => (Go.verifyWith libs.go own source now token (audience.getD "") leeway).toOption)
      fun caller hcaller => Go.verifyWith_eq_ok (toOption_eq_some hcaller)

section

variable {rt : Runtime} {supply : ℕ → Point} {root : PathName} (hroot : PlainPath root)

include hroot

/-- In a sound state only a key the rule allows under the subject can have
signed an accepted token, for whatever audience. -/
theorem Sound.index_of_verifyFor {R : String → ℕ → Prop} {c₀ : ℕ} {s : Disk}
    (h : Sound rt.sha256 supply root R c₀ s) {libs : Libs} (hpy : libs.py.Documented)
    (hgo : libs.go.Documented) {own : SpiffeId} {now leeway : ℚ} {token : String}
    {audience : Option String} {caller : Caller} {verifier : Impl} {p : Point}
    (hsigned : verifier.SignedBy libs rt.sha256 p token)
    (hv : verifier.verifyFor libs own (bundleFile root s) now token audience leeway = some caller) :
    ∃ i < s.generated, R caller.id.toString i ∧ supply i = p := by
  obtain ⟨_, _, _, _, _, _, _, _, _, _, _, _, _, _, _, _, _, ⟨d, hd, _⟩, _⟩ :=
    Impl.justified hpy hgo hv
  obtain ⟨td, ids, rfl, hl⟩ := h.document hroot hd
  rw [hd] at hv
  obtain ⟨c, q, sig, jwks, hseg, hlook, jwk, hjwk, hunder⟩ := listed_of_verifyFor hpy hgo hv
  obtain ⟨is, rfl, his⟩ := hl _ jwks hlook
  obtain ⟨i, hi, rfl⟩ := List.mem_map.mp hjwk
  exact ⟨i, (his i hi).1, (his i hi).2, hsigned c q sig (supply i) hseg hunder⟩

omit hroot in
theorem generated_le_visits {ε α : Type} {p : Prog Cmd Ans ε α} {s t : Disk}
    (h : p.Visits (Disk.semantics supply) s t) : s.generated ≤ t.generated := by
  induction p generalizing s with
  | ret r => exact (congrArg Disk.generated h).ge
  | call c k ih =>
    rcases h with rfl | ht | ht
    · exact le_refl _
    · have htorn : t = (Disk.step supply c s).2 ∨ Disk.Torn c s t := Or.inr ht
      exact generated_le_step htorn
    · exact (generated_le_step (Or.inl rfl)).trans (ih _ ht)

omit hroot in
theorem generated_le_run {s t : Disk} (h : Run rt supply root s t) : s.generated ≤ t.generated := by
  induction h with
  | refl => exact le_refl _
  | tail _ hlast ih =>
    obtain ⟨⟨impl, call⟩, hv⟩ := hlast
    cases impl with
    | python => exact ih.trans (generated_le_visits hv)
    | typescript => exact ih.trans (generated_le_visits hv)
    | go => exact ih.trans (generated_le_visits hv)

omit hroot in
/-- The disk at later instants. -/
theorem run_between {disk : ℕ → Disk} (h : ∀ n, Run rt supply root (disk n) (disk (n + 1))) {m n : ℕ}
    (hmn : m ≤ n) : Run rt supply root (disk m) (disk n) := by
  induction n, hmn using Nat.le_induction with
  | base => exact .refl
  | succ n _ ih => exact ih.trans (h n)

end

namespace Sample

/-- A file that is not touched. -/
def steady (d : Json) : Timeline (ℚ × ℕ) (Option Json) where
  file _ := some ((0, 76), some d)
  fresh _ := Or.inl rfl

/-- One call over it. -/
theorem steady_answered (ids : Identities) :
    AnsweredIn Py.fileBundleSource (fun _ => .doc (document (.str "a.b") ids)) 0 0
      (Py.fromDict (document (.str "a.b") ids)) := by
  have hstart : Reachable Py.fileBundleSource (steady (document (.str "a.b") ids)) _ :=
    .refl (a := System.initial Unit Py.fileBundleSource)
  obtain ⟨t, ht, hlog⟩ := hstart.answers (c := ()) rfl rfl
  exact ⟨Unit, inferInstance, _, t, fun _ => rfl, ht, hlog⟩

/-- The JWK of the point. -/
def holdsPoint (p : Point) (jwk : Members) : Bool :=
  match Members.get? jwk "x", Members.get? jwk "y" with
  | some (.str x), some (.str y) => decide (x = coord p.x ∧ y = coord p.y)
  | _, _ => false

/-- Libraries that accept the token under one key. -/
def keyedLibs : Libs :=
  { ownLibs with
    py := Py.PyJwt.reference Members ownSegment (fun jwk => .ok jwk) (fun _ => true)
      (fun key input signature => holdsPoint basePoint key && isOwn input signature)
      (fun _ _ _ _ => ownToken) }

theorem point_of_holdsPoint {sha256 : Hash} {p q : Point} {jwk : Members}
    (hjwk : IsP256Jwk sha256 q jwk) (h : holdsPoint p jwk = true) : q = p := by
  rw [holdsPoint, hjwk.x, hjwk.y] at h
  obtain ⟨hx, hy⟩ := of_decide_eq_true h
  exact Point.ext_xy (coord_injective q.x_lt p.x_lt hx) (coord_injective q.y_lt p.y_lt hy)

theorem keyed_signedBy (sha256 : Hash) : Impl.python.SignedBy keyedLibs sha256 basePoint ownToken := by
  intro h c s q _ hverifies
  obtain ⟨ms, key, hms, hkey, hsig⟩ := hverifies
  have hkey' : ms = key := Except.ok.inj hkey
  have hms' : q.jwk sha256 = ms := Json.obj.inj hms
  have hsig' : (holdsPoint basePoint key && isOwn (signingInput h c) s) = true := hsig
  rw [← hkey', ← hms'] at hsig'
  exact point_of_holdsPoint (isP256Jwk_jwk sha256 q) (Bool.and_eq_true_iff.mp hsig').1

/-- What the process makes of the token when it finds these lists. -/
def liveVerdict (libs : Libs) (ids : Identities) : Option Caller :=
  (Py.verifyWith libs.py xIdentity.id (Py.fromDict (document (.str "a.b") ids)) 89 ownToken none
    30).toOption

theorem steady_decides (libs : Libs) (ids : Identities) :
    Impl.python.Decides libs (fun _ => .doc (document (.str "a.b") ids)) 0 0 xIdentity.id 89
      ownToken none 30 (liveVerdict libs ids) :=
  ⟨_, steady_answered ids, rfl⟩

def oneService : Identities := AList.insert "spiffe://a.b/x" [jwkAt baseDigest supply 0] ∅

theorem live_accepted : (liveVerdict ownLibs oneService).isSome = true := by decide +kernel

theorem revoked_file : bundleFile root revoked = .doc (document (.str "a.b") ∅) :=
  bundleFile_of_get plain_root rfl

end Sample

end Spiffile
