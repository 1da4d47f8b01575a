import Mathlib.Data.Rat.Floor
import Spiffile.Candidates

/-!
# Minting a token

`Identity.token` of the three implementations, and the round trip: what one of
them mints for a receiver, each of them accepts there over the whole life of
the token, leeway included. A private key is known by its public point; the
signature is the library's.
-/

namespace Spiffile

namespace Py

/-- `int(x)`: toward zero. -/
def int (x : ℚ) : ℤ := if 0 ≤ x then ⌊x⌋ else ⌈x⌉

/-- The `kid` a key source keeps beside its key. -/
def keySourceKid (sha256 : Hash) (key : Point) : Option String :=
  match (publicJwk sha256 key.x key.y).bind fun jwk => Members.get? jwk "kid" with
  | some (.str kid) => some kid
  | _ => none

def tokenClaims (own audienceId : SpiffeId) (now ttl : ℤ) : Members :=
  [("sub", .str own.toString), ("aud", .str audienceId.toString), ("iat", .int now),
    ("exp", .int (now + ttl))]

def token (lib : PyJwt) (sha256 : Hash) (own : SpiffeId) (key : Point) (time : ℚ)
    (audience : String) (ttl : ℤ) : Except Exn String :=
  match parse audience with
  | .error e => .error (.invalidSpiffeId e.fault (.str e.value))
  | .ok audienceId =>
    match keySourceKid sha256 key with
    | none => .error (.lib (.other "OverflowError"))
    | some kid =>
      .ok (lib.encode (tokenClaims own audienceId (int time) ttl) key algorithm
        [("kid", .str kid), ("typ", .str "JWT")])

end Py

namespace Ts

def tokenHeader (kid : String) : Members :=
  [("alg", .str algorithm), ("typ", .str "JWT"), ("kid", .str kid)]

def tokenClaims (own audienceId : SpiffeId) (now ttl : ℤ) : Members :=
  [("sub", .str own.toString), ("aud", .str audienceId.toString), ("iat", .int now),
    ("exp", .int (now + ttl))]

/-- The `kid` a key source keeps beside its key. -/
def keySourceKid (sha256 : Hash) (key : Point) : String :=
  let exported := exportJwk key
  jwkThumbprint sha256 exported.crv exported.kty exported.x exported.y

def token (node : Node) (sha256 : Hash) (own : SpiffeId) (key : Point) (time : ℚ)
    (audience : String) (ttl : ℤ) : Except Exn String :=
  match parse audience with
  | .error e => .error (.invalidSpiffeId e)
  | .ok audienceId =>
    let header := node.writeSegment (tokenHeader (keySourceKid sha256 key))
    let claims := node.writeSegment (tokenClaims own audienceId ⌊time⌋ ttl)
    .ok (signingInput header claims ++ "." ++ node.sign key (signingInput header claims))

end Ts

namespace Go

def defaultTTL : ℚ := 60

/-- The header of `NewWithClaims` with the `kid`, as a Go map is written. -/
def tokenHeader (kid : String) : Members :=
  [("alg", .str algorithm), ("kid", .str kid), ("typ", .str "JWT")]

/-- The claims, as a Go map is written; `Unix` counts whole seconds. -/
def tokenClaims (own audienceId : SpiffeId) (now ttl : ℚ) : Members :=
  [("aud", .str audienceId.toString), ("exp", .int ⌊now + ttl⌋), ("iat", .int ⌊now⌋),
    ("sub", .str own.toString)]

def effectiveTTL (ttl : ℚ) : ℚ := if ttl ≤ 0 then defaultTTL else ttl

def token (lib : GoJwt) (table : Char → Bool) (sha256 : Hash) (own : SpiffeId) (key : Point)
    (time : ℚ) (audience : String) (ttl : ℚ) : Except Err String :=
  match parseSpiffeID audience with
  | .error e => .error (.invalidAudience e)
  | .ok audienceId =>
    .ok (lib.signedString (tokenHeader (publicJwk table sha256 key).kid)
      (tokenClaims own audienceId time (effectiveTTL ttl)) key)

end Go

/-! ### What travels -/

/-- A reader of the token finds the header members and the claims that were
handed to its writer, and accepts the signature. -/
def Arrives (segment : String → Option Json) (accepts : String → String → Prop) (token : String)
    (headers claims : Members) : Prop :=
  ∃ h p s header, segments token = [h, p, s] ∧ segment h = some (.obj header) ∧
    (∀ name v, Members.get? headers name = some v → Members.get? header name = some v) ∧
    segment p = some (.obj claims) ∧ accepts (signingInput h p) s

/-- The four claims of a minted token. -/
structure MintedClaims (sender receiver : SpiffeId) (iat exp : ℤ) (claims : Members) : Prop where
  names : claims.map Prod.fst ⊆ ["sub", "aud", "iat", "exp"]
  sub : Members.get? claims "sub" = some (.str sender.toString)
  aud : Members.get? claims "aud" = some (.str receiver.toString)
  iat : Members.get? claims "iat" = some (.int iat)
  exp : Members.get? claims "exp" = some (.int exp)

/-- A P-256 JWK with its thumbprint as `kid`, for ES256 if it says for what. -/
structure IsP256Jwk (sha256 : Hash) (q : Point) (j : Members) : Prop where
  kty : Members.get? j "kty" = some (.str "EC")
  crv : Members.get? j "crv" = some (.str "P-256")
  x : Members.get? j "x" = some (.str (coord q.x))
  y : Members.get? j "y" = some (.str (coord q.y))
  kid : Members.get? j "kid" = some (.str (q.kid sha256))
  alg : Members.get? j "alg" = none ∨ Members.get? j "alg" = some (.str algorithm)

theorem isP256Jwk_jwk (sha256 : Hash) (p : Point) : IsP256Jwk sha256 p (p.jwk sha256) := by
  constructor <;> simp [Point.jwk, jwkMembers, Members.get?]

/-- The derived JWK of `p` among P-256 JWKs whose thumbprints tell the keys
apart. -/
structure KeyList (sha256 : Hash) (p : Point) (jwks : List Json) : Prop where
  own : Json.obj (p.jwk sha256) ∈ jwks
  p256 : ∀ jwk ∈ jwks, ∃ q j, jwk = .obj j ∧ IsP256Jwk sha256 q j
  distinct : ∀ q j, Json.obj j ∈ jwks → IsP256Jwk sha256 q j → q.kid sha256 = p.kid sha256 → q = p

/-- An element with the kid of `p` is a JWK of `p`. -/
theorem KeyList.of_kid {sha256 : Hash} {p : Point} {jwks : List Json} (k : KeyList sha256 p jwks)
    {j : Members} (hj : Json.obj j ∈ jwks)
    (hkid : Members.get? j "kid" = some (.str (p.kid sha256))) : IsP256Jwk sha256 p j := by
  obtain ⟨q, j', hjj, hq⟩ := k.p256 _ hj
  cases hjj
  have hsame : q.kid sha256 = p.kid sha256 := by
    have he := hq.kid.symm.trans hkid
    simpa using he
  rw [← k.distinct q j hj hq hsame]
  exact hq

/-- A justified caller is the one the payload names. -/
theorem Justified.caller_eq {segment : String → Option Json} {numericDate : Json → Option ℚ}
    {binds : String → List Json → Prop} {verifies : Json → String → String → Prop}
    {token audience : String} {now leeway : ℚ} {caller : Caller}
    (hj : Justified segment numericDate binds verifies token audience now leeway caller)
    {h p s : String} {claims : Members} {sender : SpiffeId} (hseg : segments token = [h, p, s])
    (hp : segment p = some (.obj claims))
    (hsub : Members.get? claims "sub" = some (.str sender.toString))
    (hsender : Go.parseSpiffeID sender.toString = .ok sender) :
    caller = ⟨sender, .obj claims⟩ := by
  obtain ⟨h', p', s', header', claims', sub', hseg', -, -, hp', hc, hsub', hid, -⟩ := hj
  rw [hseg] at hseg'
  cases hseg'
  rw [hp] at hp'
  cases hp'
  rw [hsub] at hsub'
  cases hsub'
  rw [hsender] at hid
  obtain ⟨id, claimsJson⟩ := caller
  have hid' : sender = id := Except.ok.inj hid
  have hc' : claimsJson = .obj claims := hc
  rw [hid', hc']

/-- The life of a token, leeway included. -/
structure InWindow (iat exp : ℤ) (leeway now : ℚ) : Prop where
  leeway_pos : 0 < leeway
  lower : iat - leeway ≤ now
  upper : now < exp + leeway

namespace Py

/-- The signature is accepted under every key loaded from a JWK of `p`. -/
def Accepted (lib : PyJwt) (sha256 : Hash) (p : Point) (input signatureText : String) : Prop :=
  ∀ j, IsP256Jwk sha256 p j → Accepts lib input signatureText j

theorem minted_accepted (lib : PyJwt) (hlib : lib.Documented) (sha256 : Hash) (p : Point)
    (sender receiver : SpiffeId) (hsender : Go.parseSpiffeID sender.toString = .ok sender)
    (hreceiver : Go.parseSpiffeID receiver.toString = .ok receiver) (token : String)
    (headers claims : Members) (halg : Members.get? headers "alg" = some (.str algorithm))
    (hkid : Members.get? headers "kid" = some (.str (p.kid sha256))) (iat exp : ℤ)
    (hclaims : MintedClaims sender receiver iat exp claims)
    (harrives : Arrives lib.segment (Accepted lib sha256 p) token headers claims)
    (now leeway : ℚ) (hwin : InWindow iat exp leeway now) (file : BundleFile) (jwks : List Json)
    (hbound : ∃ b, readBundle file = .ok b ∧ b.identities.lookup sender.toString = some jwks)
    (hlist : KeyList sha256 p jwks) :
    verify lib receiver file now token none leeway = .ok ⟨sender, .obj claims⟩ := by
  obtain ⟨h, pl, s, header, hseg, hh, hsub, hp, hacc⟩ := harrives
  have hne : receiver.toString ≠ "" := by
    intro he
    rw [he] at hreceiver
    cases hreceiver
  have hready : Ready lib receiver file now token none leeway h pl s header claims (p.kid sha256)
      sender jwks :=
    { reads := ⟨hseg, hh, hp⟩
      alg := hsub _ _ halg
      kid_eq := hsub _ _ hkid
      sub := hclaims.sub
      id_ok := hsender
      aud := hclaims.aud
      valid := hlib.plain _ _ _ _ _ _ hclaims.names hclaims.sub hclaims.aud hne hclaims.iat
        hclaims.exp (by simp [verifyOptions])
        (by
          have hu := hwin.upper
          simp only [verifyOptions]
          linarith)
        (by
          have hl := hwin.lower
          simp only [verifyOptions]
          linarith)
      bound := hbound }
  have hownKid := (isP256Jwk_jwk sha256 p).kid
  have husable : Usable lib (signingInput h pl) s (p.kid sha256) jwks :=
    Or.inl ⟨_, hlist.own, hownKid, hacc _ (isP256Jwk_jwk sha256 p)⟩
  -- every candidate is a JWK of `p`, so the first one accepts
  have hclean : Unspoiled lib (signingInput h pl) s (p.kid sha256) jwks := by
    refine ⟨fun jwk hjwk => ?_, ?_⟩
    · obtain ⟨q, j, rfl, -⟩ := hlist.p256 jwk hjwk
      exact ⟨j, rfl⟩
    · rintro cs hcs pre ms post rfl -
      have hkidMs : Members.get? ms "kid" = some (.str (p.kid sha256)) := by
        unfold candidates at hcs
        split at hcs
        · cases hcs
        · next dicts hd =>
          have hown : p.jwk sha256 ∈ dicts.filter fun j =>
              Json.pyGetEq (Members.get? j "kid") (some (.str (p.kid sha256))) := by
            refine List.mem_filter.mpr ⟨?_, (Json.pyGetEq_str _ _).mpr hownKid⟩
            have hmem := hlist.own
            rw [asDicts_eq_some hd] at hmem
            obtain ⟨ms', hms', he⟩ := List.mem_map.mp hmem
            cases he
            exact hms'
          dsimp only at hcs
          rw [if_neg (by simpa using List.ne_nil_of_mem hown)] at hcs
          have hmem : ms ∈ dicts.filter fun j =>
              Json.pyGetEq (Members.get? j "kid") (some (.str (p.kid sha256))) := by
            rw [Except.ok.inj hcs]
            exact List.mem_append_right _ List.mem_cons_self
          exact (Json.pyGetEq_str _ _).mp (List.mem_filter.mp hmem).2
      have hms : Json.obj ms ∈ jwks :=
        candidates_mem hcs ms (List.mem_append_right _ List.mem_cons_self)
      obtain ⟨key, hload, hec, -⟩ := hacc ms (hlist.of_kid hms hkidMs)
      rintro (⟨e, he, -⟩ | ⟨key', hload', hec'⟩)
      · rw [hload] at he
        cases he
      · rw [hload] at hload'
        cases hload'
        rw [hec] at hec'
        cases hec'
  obtain ⟨caller, hcaller⟩ := exists_of_isOk ((hready.isOk_iff hlib husable).mpr hclean)
  rw [hcaller, (justified_of_verify lib hlib _ _ _ _ _ _ _ hcaller).caller_eq hseg hp hclaims.sub
    hsender]

end Py

namespace Ts

/-- The signature is accepted under every key loaded from a JWK of `p`. -/
def Accepted (node : Node) (sha256 : Hash) (p : Point) (input signatureText : String) : Prop :=
  ∀ j, IsP256Jwk sha256 p j → VerifiesUnder node (.obj j) input signatureText

theorem minted_accepted (node : Node) (sha256 : Hash) (p : Point) (sender receiver : SpiffeId)
    (hsender : Go.parseSpiffeID sender.toString = .ok sender) (token : String)
    (headers claims : Members) (halg : Members.get? headers "alg" = some (.str algorithm))
    (hkid : Members.get? headers "kid" = some (.str (p.kid sha256))) (iat exp : ℤ)
    (hclaims : MintedClaims sender receiver iat exp claims)
    (harrives : Arrives node.parseSegment (Accepted node sha256 p) token headers claims)
    (now leeway : ℚ) (hwin : InWindow iat exp leeway now) (file : BundleFile) (jwks : List Json)
    (hbound : ∃ b, sourceGet file = .ok b ∧ b.identities.lookup sender.toString = some jwks)
    (hlist : KeyList sha256 p jwks) :
    verify node receiver file now token none leeway = .ok ⟨sender, .obj claims⟩ := by
  obtain ⟨h, pl, s, header, hseg, hh, hsub, hp, hacc⟩ := harrives
  have hready : Ready node receiver file now token none leeway h pl s header claims (p.kid sha256)
      sender jwks :=
    { segs := hseg
      header_ok := hh
      claims_ok := hp
      alg := hsub _ _ halg
      kid_eq := hsub _ _ hkid
      sub := hclaims.sub
      id_ok := hsender
      aud := hclaims.aud
      exp := by
        have hu := hwin.upper
        have hnot : ¬ ((exp : ℚ) + leeway < now) := by linarith
        simp [hclaims.exp, checkExp, Json.num?, hnot]
      iat := by
        have hl := hwin.lower
        have hnot : ¬ ((iat : ℚ) - leeway > now) := by linarith
        simp [hclaims.iat, checkIat, Json.num?, hnot]
      bound := hbound }
  have hown : Carries (p.kid sha256) (.obj (p.jwk sha256)) :=
    congrArg some (isP256Jwk_jwk sha256 p).kid
  have husable : Usable node (signingInput h pl) s (p.kid sha256) jwks :=
    Or.inl ⟨_, hlist.own, hown, hacc _ (isP256Jwk_jwk sha256 p)⟩
  -- every candidate is a JWK of `p`, so the first one accepts
  have hclean : Unspoiled node (signingInput h pl) s (p.kid sha256) jwks := by
    refine ⟨?_, ?_⟩
    · rintro jwk hjwk rfl
      obtain ⟨q, j, he, -⟩ := hlist.p256 _ hjwk
      cases he
    · rintro cs hcs pre jwk post rfl -
      have hjwk : jwk ∈ jwks :=
        candidates_mem hcs jwk (List.mem_append_right _ List.mem_cons_self)
      obtain ⟨q, j, rfl, -⟩ := hlist.p256 jwk hjwk
      have hkidJ : Members.get? j "kid" = some (.str (p.kid sha256)) := by
        have hfilter : Json.obj (p.jwk sha256) ∈ jwks.filter fun jwk =>
            Json.jsStrictEq ((Json.jsProp? jwk "kid").getD none) (some (.str (p.kid sha256))) := by
          refine List.mem_filter.mpr ⟨hlist.own, ?_⟩
          have hprop : Json.jsProp? (.obj (p.jwk sha256)) "kid" = some (some (.str (p.kid sha256))) :=
            hown
          simp [hprop, Json.jsStrictEq]
        have hcs' := candidates_eq_ok hcs
        rw [if_neg (by simpa using List.ne_nil_of_mem hfilter)] at hcs'
        have hmem : Json.obj j ∈ jwks.filter fun jwk =>
            Json.jsStrictEq ((Json.jsProp? jwk "kid").getD none) (some (.str (p.kid sha256))) := by
          rw [← hcs']
          exact List.mem_append_right _ List.mem_cons_self
        exact (Json.jsStrictEq_str _ _).mp (List.mem_filter.mp hmem).2
      obtain ⟨key, hload, hv⟩ := hacc j (hlist.of_kid hjwk hkidJ)
      rintro ⟨key', hload', hthrow⟩
      rw [hload] at hload'
      cases hload'
      rw [hv] at hthrow
      cases hthrow
  obtain ⟨caller, hcaller⟩ := exists_of_isOk ((hready.isOk_iff husable).mpr hclean)
  rw [hcaller, (justified_of_verify node _ _ _ _ _ _ _ hcaller).caller_eq hseg hp hclaims.sub
    hsender]

end Ts

namespace Go

theorem loadKey_jwk (sha256 : Hash) (p : Point) :
    loadKey (.obj (p.jwk sha256)) = some (p.kid sha256, ⟨p.x, p.y⟩) := by
  have hkey : jwkToPublicKey
      ⟨"EC", "P-256", coord p.x, coord p.y, p.kid sha256, jwtSvidUse, algorithm⟩ =
        some ⟨p.x, p.y⟩ := by
    simp [jwkToPublicKey, decode_coord, Base64Url.beValue_beBytes _ _ p.x_lt,
      Base64Url.beValue_beBytes _ _ p.y_lt]
  simp [loadKey, decodeJwk_jwk, hkey]

theorem mem_candidateKeys {jwks : List Json} {kid : String} {jwk : Json} {key : PublicKey}
    (hjwk : jwk ∈ jwks) (hload : loadKey jwk = some (kid, key)) : key ∈ candidateKeys jwks kid := by
  have hall : (kid, key) ∈ jwks.filterMap loadKey := List.mem_filterMap.mpr ⟨jwk, hjwk, hload⟩
  have hex : ∃ found ∈ candidateKeys jwks kid, found = key := by
    refine (exists_candidateKey_iff _ _ _).mpr ⟨⟨_, hall, rfl⟩, ?_⟩
    by_cases hkid : kid = ""
    · exact Or.inl (by simp [hkid])
    · exact Or.inr ⟨_, List.mem_filter.mpr ⟨hall, by simp [hkid]⟩, rfl⟩
  obtain ⟨found, hfound, rfl⟩ := hex
  exact hfound

/-- The signature is accepted under the public key of `p`. -/
def Accepted (lib : GoJwt) (p : Point) (input signatureText : String) : Prop :=
  lib.verifies ⟨p.x, p.y⟩ input signatureText = true

theorem minted_accepted (lib : GoJwt) (hlib : lib.Documented) (sha256 : Hash) (p : Point)
    (sender receiver : SpiffeId) (hsender : Go.parseSpiffeID sender.toString = .ok sender)
    (hreceiver : Go.parseSpiffeID receiver.toString = .ok receiver) (token : String)
    (headers claims : Members) (halg : Members.get? headers "alg" = some (.str algorithm))
    (hkid : Members.get? headers "kid" = some (.str (p.kid sha256))) (iat exp : ℤ)
    (hclaims : MintedClaims sender receiver iat exp claims)
    (harrives : Arrives lib.segment (Accepted lib p) token headers claims)
    (now leeway : ℚ) (hwin : InWindow iat exp leeway now) (file : BundleFile) (jwks : List Json)
    (hbound : ∃ b, readBundle file = .ok b ∧ b.identities.lookup sender.toString = some jwks)
    (hlist : KeyList sha256 p jwks) :
    verify lib receiver file now token "" leeway = .ok ⟨sender, .obj claims⟩ := by
  obtain ⟨h, pl, s, header, hseg, hh, hsub, hp, hacc⟩ := harrives
  have hne : receiver.toString ≠ "" := by
    intro he
    rw [he] at hreceiver
    cases hreceiver
  have hleeway : effectiveLeeway leeway = leeway := if_neg (not_le.mpr hwin.leeway_pos)
  have hready : Ready lib receiver file now token "" leeway h pl s header claims (p.kid sha256)
      sender jwks :=
    { reads := ⟨hseg, hh, by rw [hp]; rfl⟩
      alg := hsub _ _ halg
      kid_eq := hsub _ _ hkid
      sub := hclaims.sub
      id_ok := hsender
      aud := hclaims.aud
      valid := hlib.plain _ _ _ _ _ _ hclaims.names hclaims.sub hclaims.aud hne hclaims.iat
        hclaims.exp (by simpa only [verifyOptions, hleeway] using hwin.upper)
      bound := hbound }
  have hkey : (⟨p.x, p.y⟩ : PublicKey) ∈ candidateKeys jwks (p.kid sha256) :=
    mem_candidateKeys hlist.own (loadKey_jwk sha256 p)
  have hok : (verify lib receiver file now token "" leeway).isOk = true := by
    rw [hready.verify_eq hlib (List.ne_nil_of_mem hkey), tryCandidates]
    exact (Scan.scan_ok_iff _ _ (hready.verdict hlib) "" _ ⟨_, hkey, hacc⟩).mpr
      fun _ _ _ _ _ hf => hf
  obtain ⟨caller, hcaller⟩ := exists_of_isOk hok
  rw [hcaller, (justified_of_verify lib hlib _ _ _ _ _ _ _ hcaller).caller_eq hseg hp hclaims.sub
    hsender]

end Go

/-! ### Nine pairs -/

inductive Impl where
  | python
  | typescript
  | go

/-- The libraries the three implementations run on. -/
structure Libs where
  py : Py.PyJwt
  node : Ts.Node
  go : Go.GoJwt
  /-- The part of Go's printing table the thumbprint depends on. -/
  table : Char → Bool
  sha256 : Hash

namespace Impl

/-- `token` at a given clock value, for a whole number of seconds. -/
def token (libs : Libs) (own : SpiffeId) (key : Point) (time : ℚ) (audience : String) (ttl : ℤ) :
    Impl → Option String
  | python => (Py.token libs.py libs.sha256 own key time audience ttl).toOption
  | typescript => (Ts.token libs.node libs.sha256 own key time audience ttl).toOption
  | go => (Go.token libs.go libs.table libs.sha256 own key time audience ttl).toOption

/-- The JWK the minter derives from its key. -/
def publicJwk (libs : Libs) (key : Point) : Impl → Option Json
  | python => (Py.publicJwk libs.sha256 key.x key.y).map .obj
  | typescript => some (.obj (Ts.publicJwk libs.sha256 (Ts.exportJwk key)))
  | go => some (Go.publicJwk libs.table libs.sha256 key).marshal

/-- `verify` with the default audience. -/
def verify (libs : Libs) (own : SpiffeId) (file : BundleFile) (now : ℚ) (token : String)
    (leeway : ℚ) : Impl → Option Caller
  | python => (Py.verify libs.py own file now token none leeway).toOption
  | typescript => (Ts.verify libs.node own file now token none leeway).toOption
  | go => (Go.verify libs.go own file now token "" leeway).toOption

/-- The key list of an identity in the bundle the verifier reads. -/
def bound (file : BundleFile) (id : String) : Impl → Option (List Json)
  | python => (Py.readBundle file).toOption.bind fun b => b.identities.lookup id
  | typescript => (Ts.sourceGet file).toOption.bind fun b => b.identities.lookup id
  | go => (Go.readBundle file).toOption.bind fun b => b.identities.lookup id

/-- The header handed to the writer; PyJWT adds `typ` and `alg` of its own. -/
def header (kid : String) : Impl → Members
  | python => [("typ", .str "JWT"), ("alg", .str algorithm), ("kid", .str kid)]
  | typescript => Ts.tokenHeader kid
  | go => Go.tokenHeader kid

def claims (own audienceId : SpiffeId) (time : ℚ) (ttl : ℤ) : Impl → Members
  | python => Py.tokenClaims own audienceId (Py.int time) ttl
  | typescript => Ts.tokenClaims own audienceId ⌊time⌋ ttl
  | go => Go.tokenClaims own audienceId time (Go.effectiveTTL ttl)

def segment (libs : Libs) : Impl → String → Option Json
  | python => libs.py.segment
  | typescript => libs.node.parseSegment
  | go => libs.go.segment

/-- The verifier accepts the signature under the public key of `p`. -/
def accepted (libs : Libs) (p : Point) : Impl → String → String → Prop
  | python => Py.Accepted libs.py libs.sha256 p
  | typescript => Ts.Accepted libs.node libs.sha256 p
  | go => Go.Accepted libs.go p

end Impl

/-- A sender, a receiver whose bundle binds the sender's key, and two moments. -/
structure Exchange (libs : Libs) (minter verifier : Impl) (sender receiver : SpiffeId) (key : Point)
    (time : ℚ) (ttl : ℤ) (file : BundleFile) (now leeway : ℚ) : Prop where
  sender_ok : Go.parseSpiffeID sender.toString = .ok sender
  receiver_ok : Go.parseSpiffeID receiver.toString = .ok receiver
  ttl_pos : 0 < ttl
  window : InWindow ⌊time⌋ (⌊time⌋ + ttl) leeway now
  /-- The verifier reads what the minter writes and accepts its signature. -/
  arrives : ∀ token, minter.token libs sender key time receiver.toString ttl = some token →
    Arrives (verifier.segment libs) (verifier.accepted libs key) token
      (minter.header (key.kid libs.sha256)) (minter.claims sender receiver time ttl)
  bound : ∃ jwks own, verifier.bound file sender.toString = some jwks ∧
    minter.publicJwk libs key = some own ∧ own ∈ jwks ∧
    (∀ jwk ∈ jwks, ∃ q j, jwk = .obj j ∧ IsP256Jwk libs.sha256 q j) ∧
    ∀ q j, Json.obj j ∈ jwks → IsP256Jwk libs.sha256 q j →
      q.kid libs.sha256 = key.kid libs.sha256 → q = key

/-- The three minters derive one JWK. -/
theorem Impl.publicJwk_eq (libs : Libs) (key : Point) (minter : Impl) :
    minter.publicJwk libs key = some (.obj (key.jwk libs.sha256)) := by
  cases minter with
  | python => simp only [Impl.publicJwk, py_publicJwk, Option.map_some]
  | typescript => simp only [Impl.publicJwk, ts_publicJwk]
  | go => simp only [Impl.publicJwk, go_publicJwk]

theorem py_keySourceKid (sha256 : Hash) (key : Point) :
    Py.keySourceKid sha256 key = some (key.kid sha256) := by
  simp [Py.keySourceKid, py_publicJwk, (isP256Jwk_jwk sha256 key).kid]

/-- Each minter mints for every receiver. -/
theorem Impl.token_isSome (libs : Libs) (own receiver : SpiffeId) (key : Point) (time : ℚ) (ttl : ℤ)
    (hreceiver : Go.parseSpiffeID receiver.toString = .ok receiver) (minter : Impl) :
    ∃ token, minter.token libs own key time receiver.toString ttl = some token := by
  cases minter with
  | python =>
    simp [Impl.token, Py.token, py_parse_eq, hreceiver, py_keySourceKid, Except.toOption]
  | typescript => simp [Impl.token, Ts.token, ts_parse_eq, hreceiver, Except.toOption]
  | go => simp [Impl.token, Go.token, hreceiver, Except.toOption]

theorem Py.int_of_nonneg {time : ℚ} (h : 0 ≤ time) : Py.int time = ⌊time⌋ := if_pos h

theorem Impl.minted (own receiver : SpiffeId) (time : ℚ) (ttl : ℤ) (hpos : 0 < ttl)
    (minter : Impl) (htime : minter = .python → 0 ≤ time) :
    MintedClaims own receiver ⌊time⌋ (⌊time⌋ + ttl) (minter.claims own receiver time ttl) := by
  cases minter with
  | python =>
    rw [Impl.claims, Py.int_of_nonneg (htime rfl)]
    constructor <;> simp [Py.tokenClaims, Members.get?]
  | typescript => constructor <;> simp [Impl.claims, Ts.tokenClaims, Members.get?]
  | go =>
    have httl : Go.effectiveTTL ttl = ttl := if_neg (not_le.mpr (by exact_mod_cast hpos))
    rw [Impl.claims, httl]
    constructor <;> simp [Go.tokenClaims, Members.get?]

theorem Impl.header_alg (kid : String) (minter : Impl) :
    Members.get? (minter.header kid) "alg" = some (.str algorithm) := by
  cases minter <;> simp [Impl.header, Ts.tokenHeader, Go.tokenHeader, Members.get?]

theorem Impl.header_kid (kid : String) (minter : Impl) :
    Members.get? (minter.header kid) "kid" = some (.str kid) := by
  cases minter <;> simp [Impl.header, Ts.tokenHeader, Go.tokenHeader, Members.get?]

theorem exists_of_toOption_bind {ε α β : Type} {r : Except ε α} {f : α → Option β} {b : β}
    (h : r.toOption.bind f = some b) : ∃ a, r = .ok a ∧ f a = some b := by
  cases r with
  | ok a => exact ⟨a, rfl, h⟩
  | error e => cases h

/-- What one implementation mints, each of the three accepts during the life
of the token, with the sender and the claims it was minted for. Python cuts a
time before 1970 toward zero, so there its clock must not be negative. -/
theorem mint_verify_round_trip (libs : Libs) (hpy : libs.py.Documented) (hgo : libs.go.Documented)
    (minter verifier : Impl) (sender receiver : SpiffeId) (key : Point) (time : ℚ) (ttl : ℤ)
    (file : BundleFile) (now leeway : ℚ) (htime : minter = .python → 0 ≤ time)
    (h : Exchange libs minter verifier sender receiver key time ttl file now leeway) :
    ∃ token claims, minter.token libs sender key time receiver.toString ttl = some token ∧
      MintedClaims sender receiver ⌊time⌋ (⌊time⌋ + ttl) claims ∧
      verifier.verify libs receiver file now token leeway = some ⟨sender, .obj claims⟩ := by
  obtain ⟨token, htoken⟩ := Impl.token_isSome libs sender receiver key time ttl h.receiver_ok minter
  have hminted := Impl.minted sender receiver time ttl h.ttl_pos minter htime
  have harrives := h.arrives token htoken
  have halg := Impl.header_alg (key.kid libs.sha256) minter
  have hkid := Impl.header_kid (key.kid libs.sha256) minter
  obtain ⟨jwks, own, hbound, hown, hmem, hp256, hdistinct⟩ := h.bound
  rw [Impl.publicJwk_eq] at hown
  cases hown
  have hlist : KeyList libs.sha256 key jwks := ⟨hmem, hp256, hdistinct⟩
  refine ⟨token, minter.claims sender receiver time ttl, htoken, hminted, ?_⟩
  cases verifier with
  | python =>
    rw [Impl.verify, Py.minted_accepted libs.py hpy libs.sha256 key sender receiver h.sender_ok
      h.receiver_ok token _ _ halg hkid _ _ hminted harrives now leeway h.window file jwks
      (exists_of_toOption_bind hbound) hlist]
    rfl
  | typescript =>
    rw [Impl.verify, Ts.minted_accepted libs.node libs.sha256 key sender receiver h.sender_ok
      token _ _ halg hkid _ _ hminted harrives now leeway h.window file jwks
      (exists_of_toOption_bind hbound) hlist]
    rfl
  | go =>
    rw [Impl.verify, Go.minted_accepted libs.go hgo libs.sha256 key sender receiver h.sender_ok
      h.receiver_ok token _ _ halg hkid _ _ hminted harrives now leeway h.window file jwks
      (exists_of_toOption_bind hbound) hlist]
    rfl

/-! ### One key and one token -/

namespace Sample

/-- The base point of P-256, whose private key is 1. -/
def basePoint : Point where
  x := 0x6b17d1f2e12c4247f8bce6e563a440f277037d812deb33a0f4a13945d898c296
  y := 0x4fe342e2fe1a7f9b8ee7eb4a7c0f9e162bce33576b315ececbb6406837bf51f5
  x_lt := by decide
  y_lt := by decide

/-- SHA-256 on the canonical text of the base point. -/
def baseDigest : Hash := fun _ =>
  [199, 29, 1, 112, 15, 176, 50, 136, 112, 241, 171, 88, 12, 147, 158, 234, 151, 134, 50, 135, 100,
    148, 109, 176, 68, 112, 101, 92, 115, 47, 151, 67]

def baseKid : String := "xx0BcA-wMohw8atYDJOe6peGModklG2wRHBlXHMvl0M"

def mintedHeaderText : String :=
  "eyJ0eXAiOiJKV1QiLCJhbGciOiJFUzI1NiIsImtpZCI6Inh4MEJjQS13TW9odzhhdFlESk9lNnBlR01vZGtsRzJ3UkhCbFhITXZsME0ifQ"

def mintedHeader : Members :=
  [("typ", .str "JWT"), ("alg", .str "ES256"), ("kid", .str baseKid)]

def mintedPayloadText : String :=
  "eyJzdWIiOiJzcGlmZmU6Ly9hLmIveCIsImF1ZCI6InNwaWZmZTovL2EuYi95IiwiaWF0IjowLCJleHAiOjYwfQ"

def mintedClaims : Members :=
  [("sub", .str "spiffe://a.b/x"), ("aud", .str "spiffe://a.b/y"), ("iat", .int 0),
    ("exp", .int 60)]

def mintedSegment (text : String) : Option Json :=
  if text = mintedHeaderText then some (.obj mintedHeader)
  else if text = mintedPayloadText then some (.obj mintedClaims) else none

def mintedToken : String := mintedHeaderText ++ "." ++ mintedPayloadText ++ ".c2ln"

def isMinted (input signature : String) : Bool :=
  input = signingInput mintedHeaderText mintedPayloadText && signature = "c2ln"

/-- Libraries that write and read this one token. -/
def libs : Libs where
  py := Py.PyJwt.reference Unit mintedSegment (fun _ => .ok ()) (fun _ => true)
    (fun _ input signature => isMinted input signature) (fun _ _ _ _ => mintedToken)
  node :=
    { Key := Unit
      parseSegment := mintedSegment
      createPublicKey := fun _ _ _ _ => some ()
      cryptoVerify := fun _ input signature => some (isMinted input signature)
      writeSegment := fun _ => mintedPayloadText
      sign := fun _ _ => "c2ln" }
  go := Go.GoJwt.reference mintedSegment (fun _ input signature => isMinted input signature)
    (fun _ _ _ => mintedToken)
  table := fun _ => false
  sha256 := baseDigest

def mintedFile : BundleFile := bundleOf [.obj (basePoint.jwk baseDigest)]

theorem receiver_ok : Go.parseSpiffeID receiver.toString = .ok receiver := rfl

theorem baseKid_eq : basePoint.kid baseDigest = baseKid := rfl

theorem minted_arrives :
    Arrives mintedSegment (Ts.Accepted libs.node baseDigest basePoint) mintedToken
      (Impl.python.header (basePoint.kid baseDigest)) mintedClaims := by
  refine ⟨mintedHeaderText, mintedPayloadText, "c2ln", mintedHeader, by decide +kernel,
    if_pos rfl, ?_, by simp [mintedSegment, mintedPayloadText, mintedHeaderText], ?_⟩
  · intro name v h
    rw [baseKid_eq] at h
    exact h
  · intro j hj
    have hload : Ts.loadKey libs.node (.obj j) = some () := by
      simp [Ts.loadKey, Json.jsProp?, hj.kty, libs]
    exact ⟨(), hload, by decide +kernel⟩

/-- Python mints this token at any moment its clock cuts to 0. -/
theorem minted_exchange (time now : ℚ) (htime : Py.int time = 0)
    (hwin : InWindow ⌊time⌋ (⌊time⌋ + 60) 30 now) :
    Exchange libs .python .typescript sender receiver basePoint time 60 mintedFile now 30 :=
  { sender_ok := sender_ok
    receiver_ok := receiver_ok
    ttl_pos := by norm_num
    window := hwin
    arrives := by
      intro token htoken
      have hclaims : Impl.python.claims sender receiver time 60 = mintedClaims := by
        have hs : sender.toString = "spiffe://a.b/x" := by decide
        have hr : receiver.toString = "spiffe://a.b/y" := by decide
        simp [Impl.claims, Py.tokenClaims, mintedClaims, htime, hs, hr]
      have htext : token = mintedToken := by
        simp only [Impl.token, Py.token, py_parse_eq, receiver_ok, py_keySourceKid, Except.toOption,
          Option.some.injEq] at htoken
        exact htoken.symm
      rw [hclaims, htext]
      exact minted_arrives
    bound := by
      obtain ⟨b, hb, hlook⟩ := ts_bound [.obj (basePoint.jwk baseDigest)] (List.cons_ne_nil _ _)
      refine ⟨[.obj (basePoint.jwk baseDigest)], .obj (basePoint.jwk baseDigest), ?_,
        Impl.publicJwk_eq libs basePoint .python, List.mem_singleton_self _, ?_, ?_⟩
      · rw [Impl.bound, mintedFile, hb]
        exact hlook
      · intro jwk hjwk
        rw [List.mem_singleton.mp hjwk]
        exact ⟨basePoint, _, rfl, isP256Jwk_jwk baseDigest basePoint⟩
      · intro q j hj hq _
        cases List.mem_singleton.mp hj
        have hown := isP256Jwk_jwk baseDigest basePoint
        have hx : coord q.x = coord basePoint.x := by simpa using hq.x.symm.trans hown.x
        have hy : coord q.y = coord basePoint.y := by simpa using hq.y.symm.trans hown.y
        exact Point.ext_xy (coord_injective q.x_lt basePoint.x_lt hx)
          (coord_injective q.y_lt basePoint.y_lt hy) }

end Sample

theorem mint_verify_round_trip_sample :
    ∃ token claims, Impl.python.token Sample.libs Sample.sender Sample.basePoint 0
        Sample.receiver.toString 60 = some token ∧
      MintedClaims Sample.sender Sample.receiver ⌊(0 : ℚ)⌋ (⌊(0 : ℚ)⌋ + 60) claims ∧
      Impl.typescript.verify Sample.libs Sample.receiver Sample.mintedFile 89 token 30 =
        some ⟨Sample.sender, .obj claims⟩ :=
  mint_verify_round_trip Sample.libs (Py.PyJwt.reference_documented ..)
    (Go.GoJwt.reference_documented ..) .python .typescript Sample.sender Sample.receiver
    Sample.basePoint 0 60 Sample.mintedFile 89 30 (fun _ => le_refl 0)
    (Sample.minted_exchange 0 89 (by simp [Py.int]) ⟨by norm_num, by norm_num, by norm_num⟩)

/-- Half a second before 1970 Python mints the token of 1970, and a receiver
whose clock is at the beginning of the window finds it issued in the future. -/
theorem python_mint_before_epoch :
    Exchange Sample.libs .python .typescript Sample.sender Sample.receiver Sample.basePoint (-1 / 2)
        60 Sample.mintedFile (-31) 30 ∧
      ¬ ∃ token claims, Impl.python.token Sample.libs Sample.sender Sample.basePoint (-1 / 2)
          Sample.receiver.toString 60 = some token ∧
        MintedClaims Sample.sender Sample.receiver ⌊(-1 / 2 : ℚ)⌋ (⌊(-1 / 2 : ℚ)⌋ + 60) claims ∧
        Impl.typescript.verify Sample.libs Sample.receiver Sample.mintedFile (-31) token 30 =
          some ⟨Sample.sender, .obj claims⟩ := by
  have hfloor : ⌊(-1 / 2 : ℚ)⌋ = -1 := by norm_num
  have hint : Py.int (-1 / 2) = 0 := by
    rw [Py.int, if_neg (by norm_num)]
    norm_num
  refine ⟨Sample.minted_exchange _ _ hint ?_, ?_⟩
  · rw [hfloor]
    constructor <;> norm_num
  · rintro ⟨token, claims, htoken, -, hverify⟩
    have htext : token = Sample.mintedToken := by
      simp only [Impl.token, Py.token, py_parse_eq, Sample.receiver_ok, py_keySourceKid,
        Except.toOption, Option.some.injEq] at htoken
      exact htoken.symm
    have hreject : (Ts.verify Sample.libs.node Sample.receiver Sample.mintedFile (-31)
        Sample.mintedToken none 30).isOk = false := by decide +kernel
    rw [htext, Impl.verify] at hverify
    cases hr : Ts.verify Sample.libs.node Sample.receiver Sample.mintedFile (-31)
      Sample.mintedToken none 30 with
    | error e =>
      rw [hr] at hverify
      cases hverify
    | ok caller =>
      rw [hr] at hreject
      cases hreject

end Spiffile
