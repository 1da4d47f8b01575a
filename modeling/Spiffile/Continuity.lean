import Spiffile.Completion
import Spiffile.Revocation

/-!
# Which tokens a rotation keeps

`rotate_service` puts a new key at the head of a list, and Go writes the old
ones again through its struct. Neither changes the answer to an older token:
the candidates stay the same, or the new key is one more of them that the loop
passes. Without the old keys the new one is alone.
-/

namespace Spiffile

open FileTree

/-! ### One more candidate -/

namespace Py

theorem tryCandidates_cons {lib : PyJwt} (hlib : lib.Documented) {new : Members} {key : lib.Key}
    (hload : lib.fromDict new = .ok key) (hec : lib.isEc key = true) {token : String}
    {opts : DecodeOptions} {now : ℚ} {id : SpiffeId} {note : Option String} {cs : List Members}
    {caller : Caller} (h : tryCandidates lib token opts now id note cs = .ok caller) :
    tryCandidates lib token opts now id note (new :: cs) = .ok caller := by
  obtain ⟨ms, -, key', claims, -, hdecode, rfl⟩ := tryCandidates_eq_ok h
  obtain ⟨hd, p, s, header, alg, hreads, halg, hin, -, hvalid⟩ := hlib.decode_ok _ _ _ _ _ hdecode
  refine Scan.scan_cons_eq ?_ h fun _ he => by cases he
  cases hverifies : lib.verifies key (signingInput hd p) s with
  | true =>
    have hnew := hlib.decode_complete _ _ _ _ _ _ _ _ _ _ hreads halg hin hec hverifies hvalid
    exact Or.inr (by simp only [tryCandidate, hload, hnew])
  | false =>
    obtain ⟨text, hnew⟩ :=
      hlib.decode_badSignature _ _ _ now _ _ _ _ _ _ hreads halg hin hec hverifies
    exact Or.inl ⟨some text, by simp only [tryCandidate, hload, hnew]⟩

theorem candidates_cons {old : List Json} {kid : Option Json} {cs : List Members} {new : Members}
    (hkid : Json.pyGetEq (Members.get? new "kid") kid = false) (h : candidates old kid = .ok cs) :
    candidates (.obj new :: old) kid = .ok cs ∨ candidates (.obj new :: old) kid = .ok (new :: cs) := by
  unfold candidates at h ⊢
  split at h
  · cases h
  · next dicts hd =>
    cases h
    simp only [asDicts, hd, Option.map_some]
    rcases Scan.fallback_cons_of_neg (p := fun j => Json.pyGetEq (Members.get? j "kid") kid) hkid
      dicts with hsame | hmore
    · exact Or.inl (congrArg Except.ok hsame)
    · exact Or.inr (congrArg Except.ok hmore)

/-- Every way of accepting the token over the old list is one over the new. -/
def KeepsCaller (lib : PyJwt) (token : String) (now : ℚ) (caller : Caller) (old new : List Json) :
    Prop :=
  ∀ header opts cs, lib.getUnverifiedHeader token = .ok header →
    candidates old (Members.get? header "kid") = .ok cs →
    tryCandidates lib token opts now caller.id none cs = .ok caller →
    ∃ cs', candidates new (Members.get? header "kid") = .ok cs' ∧
      tryCandidates lib token opts now caller.id none cs' = .ok caller

theorem verify_transfer {lib : PyJwt} {own : SpiffeId} {f g : BundleFile} {now : ℚ} {token : String}
    {audience : Option String} {leeway : ℚ} {caller : Caller} {b₁ b₂ : Bundle Json}
    (hf : readBundle f = .ok b₁) (hg : readBundle g = .ok b₂)
    (hkeys : ∀ old, b₁.identities.lookup caller.id.toString = some old →
      ∃ new, b₂.identities.lookup caller.id.toString = some new ∧
        KeepsCaller lib token now caller old new)
    (h : verify lib own f now token audience leeway = .ok caller) :
    verify lib own g now token audience leeway = .ok caller := by
  unfold verify at h ⊢
  obtain ⟨header, hheader, h⟩ := bind_eq_ok h
  obtain ⟨unverified, hunverified, h⟩ := bind_eq_ok h
  obtain ⟨_, htruthy, h⟩ := bind_eq_ok h
  obtain ⟨claimedId, hclaimed, h⟩ := bind_eq_ok h
  obtain ⟨_, haud, h⟩ := bind_eq_ok h
  obtain ⟨b, hb, h⟩ := bind_eq_ok h
  obtain ⟨old, hold, h⟩ := bind_eq_ok h
  obtain ⟨cs, hcs, hloop⟩ := bind_eq_ok h
  cases hf.symm.trans hb
  have hid : claimedId = caller.id := by
    obtain ⟨ms, -, key, claims, -, -, rfl⟩ := tryCandidates_eq_ok hloop
    rfl
  subst hid
  obtain ⟨new, hnew, hkeeps⟩ := hkeys old (keysFor_eq_ok hold)
  obtain ⟨cs', hcs', hloop'⟩ := hkeeps header _ cs (orMalformed_eq_ok hheader) hcs hloop
  have hnewKeys : keysFor b₂ caller.id.toString = .ok new := by simp only [keysFor, hnew]
  simp only [hheader, hunverified, htruthy, hclaimed, haud, hg, hnewKeys, hcs', ok_bind]
  exact hloop'

end Py

namespace Ts

theorem tryCandidates_cons {node : Node} {new : Json} {key : node.Key}
    (hload : loadKey node new = some key)
    (hanswers : ∀ input s, ∃ b, node.cryptoVerify key input s = some b) {input signatureText : String}
    {id : SpiffeId} {claims : Json} {cs : List Json} {caller : Caller}
    (h : tryCandidates node input signatureText id claims cs = .ok caller) :
    tryCandidates node input signatureText id claims (new :: cs) = .ok caller := by
  obtain ⟨rfl, -⟩ := tryCandidates_eq_ok h
  refine Scan.scan_cons_eq ?_ h fun _ he => by cases he
  obtain ⟨b, hb⟩ := hanswers input signatureText
  cases b with
  | true => exact Or.inr (by simp only [tryCandidate, hload, hb])
  | false => exact Or.inl ⟨(), by simp only [tryCandidate, hload, hb]⟩

theorem candidates_cons {old : List Json} {kid : Option Json} {cs : List Json} {new : Members}
    (hkid : Json.jsStrictEq (Members.get? new "kid") kid = false) (h : candidates old kid = .ok cs) :
    candidates (.obj new :: old) kid = .ok cs ∨
      candidates (.obj new :: old) kid = .ok (.obj new :: cs) := by
  unfold candidates at h ⊢
  have hprop : (Json.jsProp? (.obj new) "kid").isNone = false := rfl
  split_ifs at h with hany
  cases h
  rw [List.any_cons, hprop, Bool.false_or, if_neg hany]
  rcases Scan.fallback_cons_of_neg (a := Json.obj new)
    (p := fun jwk => Json.jsStrictEq ((Json.jsProp? jwk "kid").getD none) kid) hkid old with
    hsame | hmore
  · exact Or.inl (congrArg Except.ok hsame)
  · exact Or.inr (congrArg Except.ok hmore)

/-- Every way of accepting the token over the old list is one over the new. -/
def KeepsCaller (node : Node) (token : String) (caller : Caller) (old new : List Json) : Prop :=
  ∀ h p s header cs, segments token = [h, p, s] → node.parseSegment h = some (.obj header) →
    candidates old (Members.get? header "kid") = .ok cs →
    tryCandidates node (signingInput h p) s caller.id caller.claims cs = .ok caller →
    ∃ cs', candidates new (Members.get? header "kid") = .ok cs' ∧
      tryCandidates node (signingInput h p) s caller.id caller.claims cs' = .ok caller

theorem verify_transfer {node : Node} {own : SpiffeId} {f g : BundleFile} {now : ℚ} {token : String}
    {audience : Option String} {leeway : ℚ} {caller : Caller} {b₁ b₂ : Bundle String}
    (hf : sourceGet f = .ok b₁) (hg : sourceGet g = .ok b₂)
    (hkeys : ∀ old, b₁.identities.lookup caller.id.toString = some old →
      ∃ new, b₂.identities.lookup caller.id.toString = some new ∧
        KeepsCaller node token caller old new)
    (h : verify node own f now token audience leeway = .ok caller) :
    verify node own g now token audience leeway = .ok caller := by
  obtain ⟨hd, p, s, header, claims, id, b, old, cs, hseg, hheader, hclaims, halg, hsub, hid, haud,
    hexp, hiat, hb, hold, hcs, hloop⟩ := verify_eq_ok h
  cases hf.symm.trans hb
  obtain ⟨rfl, -⟩ := tryCandidates_eq_ok hloop
  obtain ⟨new, hnew, hkeeps⟩ := hkeys old hold
  obtain ⟨cs', hcs', hloop'⟩ := hkeeps hd p s header cs hseg hheader hcs hloop
  rw [verify_eq_of_order hseg hheader hclaims halg hsub hid haud hg hnew, hexp, hiat, hcs']
  exact hloop'

end Ts

namespace Go

theorem tryCandidates_cons {lib : GoJwt} (hlib : lib.Documented) (key : PublicKey) {token : String}
    {opts : ParserOptions} (hopts : opts.validMethods = [algorithm]) {now : ℚ} {id : SpiffeId}
    {sub note : String} {cs : List PublicKey} {caller : Caller}
    (h : tryCandidates lib token opts now id sub note cs = .ok caller) :
    tryCandidates lib token opts now id sub note (key :: cs) = .ok caller := by
  obtain ⟨key', -, claims, hparse, rfl⟩ := tryCandidates_eq_ok h
  obtain ⟨hd, p, s, header, alg, hreads, halg, hin, -, hvalid⟩ := hlib.parse_ok _ _ _ _ _ hparse
  have hmethod : algorithm ∈ opts.validMethods := by rw [hopts]; exact List.mem_singleton_self _
  rw [hopts, List.mem_singleton] at hin
  subst hin
  refine Scan.scan_cons_eq ?_ h fun _ he => by cases he
  cases hverifies : lib.verifies key (signingInput hd p) s with
  | true =>
    have hnew := hlib.parse_complete _ _ _ _ _ _ _ _ _ hreads halg hmethod hverifies hvalid
    exact Or.inr (by simp only [tryCandidate, hnew])
  | false =>
    obtain ⟨text, hnew, htext⟩ :=
      hlib.parse_badSignature _ _ _ now _ _ _ _ _ hreads halg hmethod hverifies
    exact Or.inl ⟨text, by simp only [tryCandidate, hnew, htext, if_true]⟩

theorem candidateKeys_cons {old kept : List Json} {new : Json} {k kid : String} {key : PublicKey}
    (hload : loadKey new = some (k, key)) (hkid : kid = "" ∨ k ≠ kid)
    (hsame : kept.filterMap loadKey = old.filterMap loadKey) :
    candidateKeys (new :: kept) kid = candidateKeys old kid ∨
      candidateKeys (new :: kept) kid = key :: candidateKeys old kid := by
  have hnot : decide (kid ≠ "" ∧ k = kid) = false := by
    rw [decide_eq_false_iff_not]
    rintro ⟨hne, he⟩
    exact hkid.elim hne fun hk => hk he
  have hall : (new :: kept).filterMap loadKey = (k, key) :: old.filterMap loadKey := by
    rw [List.filterMap_cons, hload, hsame]
  rw [candidateKeys_eq, candidateKeys_eq, hall]
  rcases Scan.fallback_cons_of_neg (a := (k, key)) (p := fun l => decide (kid ≠ "" ∧ l.1 = kid)) hnot
    (old.filterMap loadKey) with h | h
  · exact Or.inl (congrArg _ h)
  · exact Or.inr (congrArg _ h)

/-- Every way of accepting the token over the old list is one over the new. -/
def KeepsCaller (lib : GoJwt) (token : String) (now : ℚ) (caller : Caller) (old new : List Json) :
    Prop :=
  ∀ header claims opts sub, lib.parseUnverified token = .ok (header, claims) →
    opts.validMethods = [algorithm] →
    tryCandidates lib token opts now caller.id sub "" (candidateKeys old (headerKid header)) =
      .ok caller →
    tryCandidates lib token opts now caller.id sub "" (candidateKeys new (headerKid header)) =
      .ok caller

theorem verify_transfer {lib : GoJwt} {own : SpiffeId} {f g : BundleFile} {now : ℚ}
    {token audience : String} {leeway : ℚ} {caller : Caller} {b₁ b₂ : Bundle String}
    (hf : readBundle f = .ok b₁) (hg : readBundle g = .ok b₂)
    (hkeys : ∀ old, b₁.identities.lookup caller.id.toString = some old →
      ∃ new, b₂.identities.lookup caller.id.toString = some new ∧
        KeepsCaller lib token now caller old new)
    (h : verify lib own f now token audience leeway = .ok caller) :
    verify lib own g now token audience leeway = .ok caller := by
  unfold verify at h ⊢
  obtain ⟨unverified, hunverified, h⟩ := bind_eq_ok h
  obtain ⟨sub, hsub, h⟩ := bind_eq_ok h
  obtain ⟨claimedId, hclaimed, h⟩ := bind_eq_ok h
  obtain ⟨_, haud, h⟩ := bind_eq_ok h
  obtain ⟨b, hb, h⟩ := bind_eq_ok h
  obtain ⟨old, hold, h⟩ := bind_eq_ok h
  obtain ⟨_, hsome, hloop⟩ := bind_eq_ok h
  cases hf.symm.trans hb
  have hid : claimedId = caller.id := by
    obtain ⟨key, -, claims, -, rfl⟩ := tryCandidates_eq_ok hloop
    rfl
  subst hid
  obtain ⟨new, hnew, hkeeps⟩ := hkeys old (keysFor_eq_ok hold)
  have hloop' := hkeeps unverified.1 unverified.2 _ sub (orElse_eq_ok hunverified) rfl hloop
  have hnewKeys : keysFor b₂ caller.id.toString = .ok new := by simp only [keysFor, hnew]
  have hnonempty : (candidateKeys new (headerKid unverified.1)).isEmpty = false := by
    obtain ⟨key, hkey, -⟩ := tryCandidates_eq_ok hloop'
    rw [List.isEmpty_eq_false_iff]
    exact List.ne_nil_of_mem hkey
  simp only [hunverified, hsub, hclaimed, haud, hg, hnewKeys, hnonempty, ok_bind, Bool.not_false,
    ensure_true]
  exact hloop'

end Go

/-! ### The old keys, and the new one -/

namespace Impl

/-- The trust domain of the bundle that is read, where it is a text. -/
def domain (file : BundleFile) : Impl → Option String
  | python => (Py.readBundle file).toOption.bind fun b =>
    match b.trustDomain with
    | .str td => some td
    | _ => none
  | typescript => (Ts.sourceGet file).toOption.map Bundle.trustDomain
  | go => (Go.readBundle file).toOption.map Bundle.trustDomain

/-- The `kid` an element of a key list is known by. -/
def kidOf (jwk : Json) : Impl → Option Json
  | python =>
    match jwk with
    | .obj ms => Members.get? ms "kid"
    | _ => none
  | typescript => (Json.jsProp? jwk "kid").getD none
  | go => (Go.decodeJwk jwk).map fun jwk => .str jwk.kid

/-- The `kid` in the header of the token. -/
def HeaderKid (libs : Libs) (token kid : String) (impl : Impl) : Prop :=
  ∃ h p s header, segments token = [h, p, s] ∧ impl.segment libs h = some (.obj header) ∧
    Members.get? header "kid" = some (.str kid)

/-- The `sub` in the payload of the token. -/
def ClaimsSub (libs : Libs) (token sub : String) (impl : Impl) : Prop :=
  ∃ h p s claims, segments token = [h, p, s] ∧ impl.segment libs p = some (.obj claims) ∧
    Members.get? claims "sub" = some (.str sub)

/-- The library takes the derived JWK for an EC key it can check signatures
with. -/
def Loads (libs : Libs) (sha256 : Hash) (p : Point) : Impl → Prop
  | python => ∃ key, libs.py.fromDict (p.jwk sha256) = .ok key ∧ libs.py.isEc key = true
  | typescript => ∃ key, Ts.loadKey libs.node (.obj (p.jwk sha256)) = some key ∧
      ∀ input s, ∃ b, libs.node.cryptoVerify key input s = some b
  | go => True

/-- What a rotation keeps of a key list beside the new key. -/
def Kept (rt : Runtime) (new : Point) (old others : List Json) : Impl → Prop
  | python => Py.keepOthers (new.jwk rt.sha256) old = .ok others
  | typescript => Ts.keepOthers (new.jwk rt.sha256) old = .ok others
  | go => others = Go.keepOthers (Go.publicJwk rt.table rt.sha256 new) old

theorem ClaimsSub.unique {libs : Libs} {token sub sub' : String} {impl : Impl}
    (h : impl.ClaimsSub libs token sub) (h' : impl.ClaimsSub libs token sub') : sub = sub' := by
  obtain ⟨hd, p, s, claims, hseg, hclaims, hsub⟩ := h
  obtain ⟨hd', p', s', claims', hseg', hclaims', hsub'⟩ := h'
  rw [hseg] at hseg'
  cases hseg'
  rw [hclaims] at hclaims'
  cases hclaims'
  rw [hsub] at hsub'
  cases hsub'
  rfl

end Impl

/-- Old keys with other kids are all kept. -/
theorem Py.keepOthers_eq {new : Members} {k : String}
    (hnew : Members.get? new "kid" = some (.str k)) {old others : List Json}
    (hkids : ∀ jwk ∈ old, Impl.python.kidOf jwk ≠ some (.str k))
    (h : keepOthers new old = .ok others) : others = old := by
  unfold keepOthers at h
  split at h
  · cases h
  · next dicts hd =>
    cases h
    have hold := asDicts_eq_some hd
    have hall : dicts.filter (fun j =>
        !Json.pyGetEq (Members.get? j "kid") (Members.get? new "kid")) = dicts := by
      refine List.filter_eq_self.mpr fun j hj => ?_
      have hne := hkids (.obj j) (hold ▸ List.mem_map.mpr ⟨j, hj, rfl⟩)
      rw [hnew, Bool.not_eq_true', Bool.eq_false_iff, ne_eq, Json.pyGetEq_str]
      exact hne
    rw [hall, hold]

theorem Ts.keepOthers_eq {new : Members} {k : String}
    (hnew : Members.get? new "kid" = some (.str k)) {old others : List Json}
    (hkids : ∀ jwk ∈ old, Impl.typescript.kidOf jwk ≠ some (.str k))
    (h : keepOthers new old = .ok others) : others = old := by
  unfold keepOthers at h
  split at h
  · cases h
  · next kids hkidsEq =>
    cases h
    have hpairs : kids.map Prod.fst = old ∧ ∀ x ∈ kids, Json.jsProp? x.1 "kid" = some x.2 := by
      clear hkids
      induction old generalizing kids with
      | nil =>
        cases hkidsEq
        exact ⟨rfl, fun _ hx => absurd hx List.not_mem_nil⟩
      | cons jwk old ih =>
        rw [List.mapM_cons] at hkidsEq
        obtain ⟨pair, hpair, hrest⟩ := Option.bind_eq_some_iff.mp hkidsEq
        obtain ⟨kid, hkid, rfl⟩ := Option.map_eq_some_iff.mp hpair
        obtain ⟨rest, hmap, hcons⟩ := Option.bind_eq_some_iff.mp hrest
        cases hcons
        obtain ⟨hfst, hsnd⟩ := ih rest hmap
        refine ⟨by rw [List.map_cons, hfst], fun x hx => ?_⟩
        rcases List.mem_cons.mp hx with rfl | hx
        · exact hkid
        · exact hsnd x hx
    obtain ⟨hfst, hsnd⟩ := hpairs
    have hall : kids.filter (fun x => !Json.jsStrictEq x.2 (Members.get? new "kid")) = kids := by
      refine List.filter_eq_self.mpr fun x hx => ?_
      have hne := hkids x.1 (hfst ▸ List.mem_map.mpr ⟨x, hx, rfl⟩)
      rw [Impl.kidOf, hsnd x hx, Option.getD_some] at hne
      rw [hnew, Bool.not_eq_true', Bool.eq_false_iff, ne_eq, Json.jsStrictEq_str]
      exact hne
    rw [hall, hfst]

/-- What Go writes again loads as before, and what it drops did not load. -/
theorem Go.filterMap_keepOthers {new : JWK} {old : List Json}
    (hkids : ∀ jwk ∈ old, Impl.go.kidOf jwk ≠ some (.str new.kid)) :
    (keepOthers new old).filterMap loadKey = old.filterMap loadKey := by
  unfold keepOthers
  rw [List.filterMap_map, List.filterMap_filterMap]
  refine List.filterMap_congr fun raw hraw => ?_
  have hne := hkids raw hraw
  cases hdec : decodeJwk raw with
  | none => simp [loadKey, hdec]
  | some jwk =>
    have hkid : jwk.kid ≠ new.kid := by
      intro he
      simp [Impl.kidOf, hdec, he] at hne
    simp [Option.filter, hkid, loadKey, hdec, decodeJwk_marshal]

/-! ### What is bound after a rotation -/

theorem inDomain_of_keptKeys {inDomain : String → Bool} {keysOf : Json → Option (List Json)}
    {s : String} {jwks : Json} {keys : List Json}
    (h : keptKeys inDomain keysOf s jwks = some keys) :
    ∃ id, Go.parseSpiffeID s = .ok id ∧ inDomain id.trustDomain = true := by
  unfold keptKeys at h
  cases hp : Go.parseSpiffeID s with
  | error e => simp [hp] at h
  | ok id =>
    simp only [hp] at h
    split_ifs at h with hin
    exact ⟨id, rfl, hin⟩

theorem Py.fromDict_lookup {d : Json} {b : Bundle Json} (h : fromDict d = .ok b) :
    ∃ es, ∀ s, b.identities.lookup s = (Members.get? es s).bind
      (keptKeys (fun td => Json.pyEq (.str td) b.trustDomain) keysMember s) := by
  unfold fromDict at h
  split at h
  · split at h
    · next identitiesDoc h1 h2 h3 =>
      split_ifs at h
      split at h
      · next es =>
        cases h
        exact ⟨es, fun s => py_lookup _ es s⟩
      · cases h
    · cases h
  · cases h

theorem Ts.fromDocument_lookup {d : Json} {b : Bundle String} (h : fromDocument d = .ok b) :
    ∃ es, ∀ s, b.identities.lookup s = (Members.get? es s).bind
      (keptKeys (fun td => td == b.trustDomain) keysMember s) := by
  have hmembers : ∀ td version identities, fromMembers td version identities = .ok b →
      ∃ es, ∀ s, b.identities.lookup s = (Members.get? es s).bind
        (keptKeys (fun td => td == b.trustDomain) keysMember s) := by
    intro td version identities hb
    unfold fromMembers at hb
    split at hb
    · next trustDomain version identities =>
      split_ifs at hb with hobj
      cases hb
      cases identities with
      | obj es => exact ⟨es, fun s => ts_lookup _ es s⟩
      | arr xs =>
        refine ⟨[], fun s => ?_⟩
        dsimp only
        rw [ts_collect_array]
        rfl
      | _ => simp [isObject] at hobj
    · cases hb
  unfold fromDocument at h
  split at h
  · exact hmembers _ _ _ h
  · exact hmembers _ _ _ h
  · cases h

theorem Go.parseBundle_lookup {d : Json} {b : Bundle String} {ws : List (String × Skip)}
    (h : parseBundle d = .ok (b, ws)) :
    ∃ es, ∀ s, b.identities.lookup s = (Members.get? es s).bind
      (keptKeys (fun td => td == b.trustDomain) decodeKeySet s) := by
  unfold parseBundle at h
  split at h
  · cases h
  · next trustDomain version identities _ =>
    split_ifs at h
    cases h
    exact ⟨identities, fun s => go_lookup _ identities s⟩
  · cases h

namespace Impl

/-- A list that is found is not empty, and stands under an ID of the trust
domain. -/
theorem bound_inTrustDomain {file : BundleFile} {td id : String} {keys : List Json} {impl : Impl}
    (hdomain : impl.domain file = some td) (h : impl.bound file id = some keys) :
    keys ≠ [] ∧ inTrustDomain td id = true := by
  cases impl with
  | python =>
    obtain ⟨b, hb, hl⟩ := exists_of_toOption_bind h
    rw [domain, hb] at hdomain
    obtain ⟨d, rfl, hfrom⟩ := Py.readBundle_eq_ok hb
    obtain ⟨es, hes⟩ := Py.fromDict_lookup hfrom
    rw [hes] at hl
    obtain ⟨entry, -, hkept⟩ := Option.bind_eq_some_iff.mp hl
    obtain ⟨spiffeId, hparse, hin⟩ := inDomain_of_keptKeys hkept
    have htd : b.trustDomain = .str td := by
      simp only [Except.toOption, Option.bind_some] at hdomain
      split at hdomain
      · next heq => rw [heq, Option.some_inj.mp hdomain]
      · cases hdomain
    rw [htd] at hin
    exact ⟨(keysOf_of_keptKeys hkept).2, by simpa [inTrustDomain, hparse, Json.pyEq] using hin⟩
  | typescript =>
    obtain ⟨b, hb, hl⟩ := exists_of_toOption_bind h
    rw [domain, hb] at hdomain
    obtain ⟨d, rfl, hfrom⟩ := Ts.sourceGet_eq_ok hb
    obtain ⟨es, hes⟩ := Ts.fromDocument_lookup hfrom
    rw [hes] at hl
    obtain ⟨entry, -, hkept⟩ := Option.bind_eq_some_iff.mp hl
    obtain ⟨spiffeId, hparse, hin⟩ := inDomain_of_keptKeys hkept
    have htd : b.trustDomain = td := Option.some_inj.mp hdomain
    rw [htd] at hin
    exact ⟨(keysOf_of_keptKeys hkept).2, by simpa [inTrustDomain, hparse] using hin⟩
  | go =>
    obtain ⟨b, hb, hl⟩ := exists_of_toOption_bind h
    rw [domain, hb] at hdomain
    obtain ⟨d, ws, rfl, hfrom⟩ := Go.readBundle_eq_ok hb
    obtain ⟨es, hes⟩ := Go.parseBundle_lookup hfrom
    rw [hes] at hl
    obtain ⟨entry, -, hkept⟩ := Option.bind_eq_some_iff.mp hl
    obtain ⟨spiffeId, hparse, hin⟩ := inDomain_of_keptKeys hkept
    have htd : b.trustDomain = td := Option.some_inj.mp hdomain
    rw [htd] at hin
    exact ⟨(keysOf_of_keptKeys hkept).2, by simpa [inTrustDomain, hparse] using hin⟩

theorem domain_document (td : String) (ids : Identities) (impl : Impl) :
    impl.domain (.doc (document (.str td) ids)) = some td := by
  cases impl with
  | python =>
    obtain ⟨b, hb, htd, -⟩ := py_fromDict_document td ids
    simp [domain, Py.readBundle, hb, Except.toOption, htd]
  | typescript =>
    obtain ⟨b, hb, htd, -⟩ := ts_fromDocument_document td ids
    simp [domain, Ts.sourceGet, hb, Except.toOption, htd]
  | go =>
    obtain ⟨b, ws, hb, htd, -⟩ := go_parseBundle_document td ids
    simp [domain, Go.readBundle, hb, Except.toOption, Except.map, htd]

end Impl

/-- What a parsed document is to the implementation that reads it. -/
def Kit.Reader {ε τ κ : Type} (kit : Kit ε τ κ) (impl : Impl) : Prop :=
  ∀ d b td, kit.parseBundle (kit.file (.ok (.json d))) = .ok b → impl.domain (.doc d) = some td →
    kit.text b.trustDomain = td ∧
      (∀ ids, kit.serialise ⟨b.trustDomain, ids⟩ = document (.str td) ids) ∧
      ∀ id, impl.bound (.doc d) id = b.identities.lookup id

theorem Py.kit_reader (rt : Runtime) : (Py.kit rt).Reader .python := by
  intro d b td hparse hdomain
  have hb : Py.readBundle (.doc d) = .ok b := hparse
  have htd : b.trustDomain = .str td := by
    rw [Impl.domain, hb] at hdomain
    simp only [Except.toOption, Option.bind_some] at hdomain
    split at hdomain
    · next heq => rw [heq, Option.some_inj.mp hdomain]
    · cases hdomain
  refine ⟨?_, ?_, ?_⟩
  · rw [htd]
    rfl
  · intro ids
    rw [htd]
    rfl
  · intro id
    rw [Impl.bound, hb]
    rfl

theorem Ts.kit_reader (rt : Runtime) : (Ts.kit rt).Reader .typescript := by
  intro d b td hparse hdomain
  have hb : Ts.sourceGet (.doc d) = .ok b := hparse
  rw [Impl.domain, hb] at hdomain
  cases hdomain
  refine ⟨rfl, fun _ => rfl, ?_⟩
  intro id
  rw [Impl.bound, hb]
  rfl

theorem Go.kit_reader (rt : Runtime) : (Go.kit rt).Reader .go := by
  intro d b td hparse hdomain
  have hb : Go.readBundle (.doc d) = .ok b := hparse
  rw [Impl.domain, hb] at hdomain
  cases hdomain
  refine ⟨rfl, fun _ => rfl, ?_⟩
  intro id
  rw [Impl.bound, hb]
  rfl

/-- What the kit keeps beside the new key is what the implementation keeps. -/
def Kit.Keeper {ε τ κ : Type} (kit : Kit ε τ κ) (rt : Runtime) (impl : Impl) : Prop :=
  ∀ new k old others, kit.publicJwk new = .ok k → kit.keepOthers k old = .ok others →
    impl.Kept rt new old others

theorem Py.kit_keeper (rt : Runtime) : (Py.kit rt).Keeper rt .python := by
  intro new k old others hk hothers
  simp only [Py.kit, py_publicJwk] at hk
  cases hk
  exact hothers

theorem Ts.kit_keeper (rt : Runtime) : (Ts.kit rt).Keeper rt .typescript := by
  intro new k old others hk hothers
  simp only [Ts.kit, ts_publicJwk] at hk
  cases hk
  exact hothers

theorem Go.kit_keeper (rt : Runtime) : (Go.kit rt).Keeper rt .go := by
  intro new k old others hk hothers
  cases hk
  exact (Except.ok.inj hothers).symm

section

variable {ε τ κ : Type} {kit : Kit ε τ κ} {rt : Runtime} {supply : ℕ → Point} {root : PathName}
  (hroot : PlainPath root) (lawful : kit.Lawful rt.sha256) {impl : Impl}
  (hreader : kit.Reader impl) (hkeeper : kit.Keeper rt impl) {s t : Disk} {td name : String}
  {keepOld : Bool}

include hroot lawful hreader hkeeper

theorem rotated_document {r : SpiffeId} (hdomain : impl.domain (bundleFile root s) = some td)
    (h : (rotateServiceWith kit root name keepOld).Returns (Disk.semantics supply) s r t) :
    ∃ (others : List Json) (ids : Identities), IsServiceName td name ∧
      impl.Kept rt (supply s.generated) (if keepOld then
        (impl.bound (bundleFile root s) (serviceId td name)).getD [] else []) others ∧
      (∀ id, ids.lookup id = if id = serviceId td name then
        some (jwkAt rt.sha256 supply s.generated :: others) else impl.bound (bundleFile root s) id) ∧
      bundleFile root t = .doc (document (.str td) ids) := by
  obtain ⟨b, ⟨d, hd, hparse⟩, hname, hrenewed⟩ := rotateService_returns hroot lawful h
  rw [bundleFile_of_get hroot hd] at hdomain ⊢
  obtain ⟨htext, hserialise, hbound⟩ := hreader d b td hparse hdomain
  obtain ⟨k, others, hk, hothers, hnodes⟩ := hrenewed.nodes
  rw [htext] at hname hothers hnodes
  have hdoc := (hnodes (bundlePath root)).trans (if_pos rfl)
  rw [updated, hserialise] at hdoc
  refine ⟨others, _, hname, ?_, ?_, bundleFile_of_get hroot hdoc⟩
  · rw [hbound]
    exact hkeeper _ _ _ _ hk hothers
  · intro id
    rw [hbound]
    split_ifs with hid
    · rw [hid, AList.lookup_insert]
    · rw [AList.lookup_insert_ne hid]

end

namespace Impl

variable {rt : Runtime} {supply : ℕ → Point} {root : PathName} (hroot : PlainPath root) {s t : Disk}
  {td name : String} {keepOld : Bool} {impl : Impl}

include hroot

theorem Returns.rotated (hdomain : impl.domain (bundleFile root s) = some td)
    (hret : impl.Returns rt supply root (.rotateService name keepOld) s t) :
    ∃ (others : List Json) (ids : Identities), IsServiceName td name ∧
      impl.Kept rt (supply s.generated) (if keepOld then
        (impl.bound (bundleFile root s) (serviceId td name)).getD [] else []) others ∧
      (∀ id, ids.lookup id = if id = serviceId td name then
        some (jwkAt rt.sha256 supply s.generated :: others) else impl.bound (bundleFile root s) id) ∧
      bundleFile root t = .doc (document (.str td) ids) := by
  cases impl with
  | python =>
    obtain ⟨r, u, hrotate, hpure⟩ := Prog.returns_bind.mp hret
    obtain ⟨-, rfl⟩ := Prog.returns_pure.mp hpure
    exact rotated_document hroot (Py.kit_lawful rt) (Py.kit_reader rt) (Py.kit_keeper rt) hdomain
      hrotate
  | typescript =>
    obtain ⟨r, u, hrotate, hpure⟩ := Prog.returns_bind.mp hret
    obtain ⟨-, rfl⟩ := Prog.returns_pure.mp hpure
    exact rotated_document hroot (Ts.kit_lawful rt) (Ts.kit_reader rt) (Ts.kit_keeper rt) hdomain
      hrotate
  | go =>
    obtain ⟨r, u, hrotate, hpure⟩ := Prog.returns_bind.mp hret
    obtain ⟨-, rfl⟩ := Prog.returns_pure.mp hpure
    exact rotated_document hroot (Go.kit_lawful rt) (Go.kit_reader rt) (Go.kit_keeper rt) hdomain
      hrotate

/-- Behind the rotation the new key heads the list of the service, and the
other lists are the same. -/
theorem Returns.rotated_bound (htd : IsTrustDomain td.toList)
    (hdomain : impl.domain (bundleFile root s) = some td)
    (hret : impl.Returns rt supply root (.rotateService name keepOld) s t) :
    ∃ others, impl.Kept rt (supply s.generated) (if keepOld then
        (impl.bound (bundleFile root s) (serviceId td name)).getD [] else []) others ∧
      impl.domain (bundleFile root t) = some td ∧
      ∀ id, impl.bound (bundleFile root t) id = if id = serviceId td name then
        some (jwkAt rt.sha256 supply s.generated :: others)
        else impl.bound (bundleFile root s) id := by
  obtain ⟨others, ids, hname, hkept, hids, hfile⟩ := hret.rotated hroot hdomain
  refine ⟨others, hkept, by rw [hfile, domain_document], fun id => ?_⟩
  rw [hfile, bound_document, readBack, hids]
  split_ifs with hin hid hid
  · rfl
  · cases hb : impl.bound (bundleFile root s) id with
    | none => rfl
    | some keys =>
      have hne := (bound_inTrustDomain hdomain hb).1
      simp [Option.filter, hne]
  · rw [hid, inTrustDomain_serviceId htd hname] at hin
    exact absurd rfl hin
  · cases hb : impl.bound (bundleFile root s) id with
    | none => rfl
    | some keys => exact absurd (bound_inTrustDomain hdomain hb).2 hin

end Impl

/-! ### The callers a rotation keeps -/

namespace Impl

/-- Every way of accepting the token over the old list is one over the new. -/
def KeepsCaller (libs : Libs) (token : String) (now : ℚ) (caller : Caller) (old new : List Json) :
    Impl → Prop
  | python => Py.KeepsCaller libs.py token now caller old new
  | typescript => Ts.KeepsCaller libs.node token caller old new
  | go => Go.KeepsCaller libs.go token now caller old new

theorem KeepsCaller.refl (libs : Libs) (token : String) (now : ℚ) (caller : Caller)
    (keys : List Json) (impl : Impl) : impl.KeepsCaller libs token now caller keys keys := by
  cases impl with
  | python =>
    intro header opts cs _ hcs hloop
    exact ⟨cs, hcs, hloop⟩
  | typescript =>
    intro h p s header cs _ _ hcs hloop
    exact ⟨cs, hcs, hloop⟩
  | go =>
    intro header claims opts sub _ _ hloop
    exact hloop

/-- The list of the caller is the only part of the file that the answer
depends on. -/
theorem verifyFor_transfer {libs : Libs} {own : SpiffeId} {f g : BundleFile} {now leeway : ℚ}
    {token : String} {audience : Option String} {caller : Caller} {impl : Impl}
    (hkeys : ∀ old, impl.bound f caller.id.toString = some old →
      ∃ new, impl.bound g caller.id.toString = some new ∧
        impl.KeepsCaller libs token now caller old new)
    {td td' : String} (hf : impl.domain f = some td) (hg : impl.domain g = some td')
    (h : impl.verifyFor libs own f now token audience leeway = some caller) :
    impl.verifyFor libs own g now token audience leeway = some caller := by
  cases impl with
  | python =>
    obtain ⟨b₁, hb₁, -⟩ := exists_of_toOption_bind hf
    obtain ⟨b₂, hb₂, -⟩ := exists_of_toOption_bind hg
    simp only [bound, hb₁, hb₂, Except.toOption, Option.bind_some] at hkeys
    have hv := Py.verify_transfer hb₁ hb₂ hkeys (toOption_eq_some h)
    simp only [verifyFor, hv, Except.toOption]
  | typescript =>
    obtain ⟨b₁, hb₁, -⟩ := Option.map_eq_some_iff.mp hf
    obtain ⟨b₂, hb₂, -⟩ := Option.map_eq_some_iff.mp hg
    replace hb₁ := toOption_eq_some hb₁
    replace hb₂ := toOption_eq_some hb₂
    simp only [bound, hb₁, hb₂, Except.toOption, Option.bind_some] at hkeys
    have hv := Ts.verify_transfer hb₁ hb₂ hkeys (toOption_eq_some h)
    simp only [verifyFor, hv, Except.toOption]
  | go =>
    obtain ⟨b₁, hb₁, -⟩ := Option.map_eq_some_iff.mp hf
    obtain ⟨b₂, hb₂, -⟩ := Option.map_eq_some_iff.mp hg
    replace hb₁ := toOption_eq_some hb₁
    replace hb₂ := toOption_eq_some hb₂
    simp only [bound, hb₁, hb₂, Except.toOption, Option.bind_some] at hkeys
    have hv := Go.verify_transfer hb₁ hb₂ hkeys (toOption_eq_some h)
    simp only [verifyFor, hv, Except.toOption]

/-- A new key at the head of the list, which the token does not name, changes
no accepted token. -/
theorem keepsCaller_rotated {libs : Libs} (hpy : libs.py.Documented) (hgo : libs.go.Documented)
    {rt : Runtime} {new : Point} {impl : Impl} (hloads : impl.Loads libs rt.sha256 new)
    {token : String} (hheader : ¬ impl.HeaderKid libs token (new.kid rt.sha256))
    {old others : List Json}
    (hkids : ∀ jwk ∈ old, impl.kidOf jwk ≠ some (.str (new.kid rt.sha256)))
    (hkept : impl.Kept rt new old others) (now : ℚ) (caller : Caller) :
    impl.KeepsCaller libs token now caller old (.obj (new.jwk rt.sha256) :: others) := by
  have hkid := get?_jwk_kid rt.sha256 new
  cases impl with
  | python =>
    obtain ⟨key, hload, hec⟩ := hloads
    have hothers := Py.keepOthers_eq hkid hkids hkept
    intro header opts cs hok hcs hloop
    obtain ⟨h, p, s, hseg, hh⟩ := hpy.header_ok _ _ hok
    have hne : Json.pyGetEq (Members.get? (new.jwk rt.sha256) "kid") (Members.get? header "kid") =
        false := by
      rw [hkid, Bool.eq_false_iff, ne_eq, Json.str_pyGetEq]
      intro hsame
      exact hheader ⟨h, p, s, header, hseg, hh, hsame⟩
    rw [hothers]
    rcases Py.candidates_cons hne hcs with hsame | hmore
    · exact ⟨cs, hsame, hloop⟩
    · exact ⟨_, hmore, Py.tryCandidates_cons hpy hload hec hloop⟩
  | typescript =>
    obtain ⟨key, hload, hanswers⟩ := hloads
    have hothers := Ts.keepOthers_eq hkid hkids hkept
    intro h p s header cs hseg hh hcs hloop
    have hne : Json.jsStrictEq (Members.get? (new.jwk rt.sha256) "kid")
        (Members.get? header "kid") = false := by
      rw [hkid, Bool.eq_false_iff, ne_eq, Json.str_jsStrictEq]
      intro hsame
      exact hheader ⟨h, p, s, header, hseg, hh, hsame⟩
    rw [hothers]
    rcases Ts.candidates_cons hne hcs with hsame | hmore
    · exact ⟨cs, hsame, hloop⟩
    · exact ⟨_, hmore, Ts.tryCandidates_cons hload hanswers hloop⟩
  | go =>
    have hgoKid : (Go.publicJwk rt.table rt.sha256 new).kid = new.kid rt.sha256 :=
      go_publicJwk_kid rt.table rt.sha256 new
    have hsame : others.filterMap Go.loadKey = old.filterMap Go.loadKey := by
      rw [hkept]
      exact Go.filterMap_keepOthers (by rw [hgoKid]; exact hkids)
    intro header claims opts sub hok hopts hloop
    obtain ⟨h, p, s, hseg, hh, -⟩ := hgo.unverified_ok _ _ _ hok
    have hne : Go.headerKid header = "" ∨ new.kid rt.sha256 ≠ Go.headerKid header := by
      unfold Go.headerKid
      split
      · next kid hk =>
        refine Or.inr fun he => hheader ⟨h, p, s, header, hseg, hh, ?_⟩
        rw [hk, he]
      · exact Or.inl rfl
    rcases Go.candidateKeys_cons (Go.loadKey_jwk rt.sha256 new) hne hsame with hall | hmore
    · rw [hall]
      exact hloop
    · rw [hmore]
      exact Go.tryCandidates_cons hgo _ hopts hloop

theorem claimsSub_of_verifyFor {libs : Libs} (hpy : libs.py.Documented) (hgo : libs.go.Documented)
    {own : SpiffeId} {file : BundleFile} {now leeway : ℚ} {token : String}
    {audience : Option String} {caller : Caller} {impl : Impl}
    (h : impl.verifyFor libs own file now token audience leeway = some caller) :
    impl.ClaimsSub libs token caller.id.toString := by
  cases impl with
  | python =>
    obtain ⟨c, p, s, _, claims, sub, hseg, -, -, hclaims, -, hsub, -, hid, -⟩ :=
      Py.justified_of_verify libs.py hpy _ _ _ _ _ _ _ (toOption_eq_some h)
    exact ⟨c, p, s, claims, hseg, hclaims, hid ▸ hsub⟩
  | typescript =>
    obtain ⟨c, p, s, _, claims, sub, hseg, -, -, hclaims, -, hsub, -, hid, -⟩ :=
      Ts.justified_of_verify libs.node _ _ _ _ _ _ _ (toOption_eq_some h)
    exact ⟨c, p, s, claims, hseg, hclaims, hid ▸ hsub⟩
  | go =>
    obtain ⟨c, p, s, _, claims, sub, hseg, -, -, hclaims, -, hsub, -, hid, -⟩ :=
      Go.justified_of_verify libs.go hgo _ _ _ _ _ _ _ (toOption_eq_some h)
    exact ⟨c, p, s, claims, hseg, hclaims, hid ▸ hsub⟩

theorem Kept.nil {rt : Runtime} {new : Point} {others : List Json} {impl : Impl}
    (h : impl.Kept rt new [] others) : others = [] := by
  cases impl with
  | python =>
    cases h
    rfl
  | typescript =>
    cases h
    rfl
  | go => exact h

end Impl

/-! ### Before and after -/

namespace Impl

section

variable {rt : Runtime} {libs : Libs} (hpy : libs.py.Documented) (hgo : libs.go.Documented)
  {supply : ℕ → Point} {root : PathName} (hroot : PlainPath root) {s t : Disk} {td name : String}
  {keepOld : Bool} {impl : Impl}

include hpy hgo hroot

/-- With the old keys every accepted token stays accepted. -/
theorem Returns.keeps (htd : IsTrustDomain td.toList)
    (hdomain : impl.domain (bundleFile root s) = some td)
    (hret : impl.Returns rt supply root (.rotateService name true) s t)
    (hloads : impl.Loads libs rt.sha256 (supply s.generated))
    (hkids : ∀ keys, impl.bound (bundleFile root s) (serviceId td name) = some keys →
      ∀ jwk ∈ keys, impl.kidOf jwk ≠ some (.str ((supply s.generated).kid rt.sha256)))
    {token : String} (hheader : ¬ impl.HeaderKid libs token ((supply s.generated).kid rt.sha256))
    {own : SpiffeId} {now leeway : ℚ} {audience : Option String} {caller : Caller}
    (h : impl.verifyFor libs own (bundleFile root s) now token audience leeway = some caller) :
    impl.verifyFor libs own (bundleFile root t) now token audience leeway = some caller := by
  obtain ⟨others, hkept, hdomain', hbound⟩ := hret.rotated_bound hroot htd hdomain
  refine verifyFor_transfer (fun old hold => ?_) hdomain hdomain' h
  rw [hbound]
  split_ifs with hid
  · rw [hid] at hold
    rw [if_pos rfl, hold] at hkept
    exact ⟨_, rfl, keepsCaller_rotated hpy hgo hloads hheader (hkids old hold) hkept now caller⟩
  · exact ⟨old, hold, KeepsCaller.refl libs token now caller old impl⟩

/-- Without the old keys only the new one accepts a token of the service. -/
theorem Returns.newKey_only (hdomain : impl.domain (bundleFile root s) = some td)
    (hret : impl.Returns rt supply root (.rotateService name false) s t) {token : String}
    (hsub : impl.ClaimsSub libs token (serviceId td name)) {own : SpiffeId} {now leeway : ℚ}
    {audience : Option String} {caller : Caller}
    (h : impl.verifyFor libs own (bundleFile root t) now token audience leeway = some caller) :
    ∃ hd p sig, segments token = [hd, p, sig] ∧
      impl.VerifiesUnder libs (jwkAt rt.sha256 supply s.generated) (signingInput hd p) sig := by
  obtain ⟨others, ids, -, hkept, hids, hfile⟩ := hret.rotated hroot hdomain
  have hid : caller.id.toString = serviceId td name :=
    (claimsSub_of_verifyFor hpy hgo h).unique hsub
  rw [hfile] at h
  obtain ⟨hd, p, sig, jwks, hseg, hlook, jwk, hjwk, hverifies⟩ := listed_of_verifyFor hpy hgo h
  rw [hid, hids, if_pos rfl] at hlook
  have hnil : others = [] := Kept.nil hkept
  cases hlook
  rw [hnil, List.mem_singleton] at hjwk
  exact ⟨hd, p, sig, hseg, hjwk ▸ hverifies⟩

/-- A token of another subject gets the same answer. -/
theorem Returns.others_same (htd : IsTrustDomain td.toList)
    (hdomain : impl.domain (bundleFile root s) = some td)
    (hret : impl.Returns rt supply root (.rotateService name keepOld) s t) {token : String}
    (hsub : ¬ impl.ClaimsSub libs token (serviceId td name)) (own : SpiffeId) (now leeway : ℚ)
    (audience : Option String) :
    impl.verifyFor libs own (bundleFile root t) now token audience leeway =
      impl.verifyFor libs own (bundleFile root s) now token audience leeway := by
  obtain ⟨others, -, hdomain', hbound⟩ := hret.rotated_bound hroot htd hdomain
  have hsame : ∀ {file caller},
      impl.verifyFor libs own file now token audience leeway = some caller →
      impl.bound (bundleFile root t) caller.id.toString =
        impl.bound (bundleFile root s) caller.id.toString := by
    intro file caller h
    have hclaims := claimsSub_of_verifyFor hpy hgo h
    have hne : caller.id.toString ≠ serviceId td name := by
      intro hid
      rw [hid] at hclaims
      exact hsub hclaims
    rw [hbound, if_neg hne]
  refine Option.ext fun caller => ⟨fun h => ?_, fun h => ?_⟩
  · refine verifyFor_transfer (fun old hold => ?_) hdomain' hdomain h
    exact ⟨old, (hsame h).symm.trans hold, KeepsCaller.refl libs token now caller old impl⟩
  · refine verifyFor_transfer (fun old hold => ?_) hdomain hdomain' h
    exact ⟨old, (hsame h).trans hold, KeepsCaller.refl libs token now caller old impl⟩

end

end Impl

namespace Sample

def keptLibs : Libs where
  py := pyJwt
  node := node
  go := goJwt
  table := fun _ => false
  sha256 := baseDigest

/-- The registered service bound to an older key. -/
def older : Disk :=
  registered.withBundle root
    (.json (document (.str "a.b") (AList.singleton "spiffe://a.b/x" [.obj jwk])))

theorem older_file : bundleFile root older = file := by
  have hput : registered.tree.Puttable (bundlePath root) := by decide
  refine bundleFile_of_get plain_root ?_
  rw [older, Disk.withBundle, Volume.get_put hput, if_pos rfl]

theorem older_bound : Impl.typescript.bound file "spiffe://a.b/x" = some [.obj jwk] := by
  rw [file, bundleOf, bound_document]
  exact readBack_sender _ (by simp)

/-- Neither the key in the list nor the token has the kid of the next key. -/
theorem older_kid : some (.str "k1") ≠
    some (Json.str ((supply older.generated).kid runtime.sha256)) := by
  have hne : "k1" ≠ (supply older.generated).kid runtime.sha256 := by decide
  simpa using hne

end Sample

end Spiffile
