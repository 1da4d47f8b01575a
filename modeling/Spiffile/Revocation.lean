import Spiffile.Runs

/-!
# Revocation is for good

A removal, or a rotation that drops the old keys, leaves only later keys under
the name; and no call, whether it ends or stops on the way, puts an earlier one
back.
-/

namespace Spiffile

open FileTree

/-- The calls that revoke the keys of a name. -/
def Revokes (name : String) (call : Call) : Prop :=
  call = .removeService name ∨ call = .rotateService name false

/-- From the `n`-th key on, this ID gets new keys only. -/
def After (revoked : String) (n : ℕ) (id : String) (i : ℕ) : Prop := id = revoked → n ≤ i

theorem admits_after (revoked : String) (n : ℕ) : Admits (After revoked n) n :=
  fun _ _ hi _ => hi

section

variable {sha256 : Hash} {supply : ℕ → Point} {root : PathName}

theorem Lists.erase_after {n : ℕ} {ids : Identities}
    (h : Lists sha256 supply (fun _ _ => True) n ids) (revoked : String) :
    Lists sha256 supply (After revoked n) n (ids.erase revoked) := by
  intro id keys hl
  by_cases hid : id = revoked
  · subst hid
    rw [AList.lookup_erase] at hl
    cases hl
  · obtain ⟨is, hkeys, his⟩ := h.erase revoked id keys hl
    exact ⟨is, hkeys, fun i hi => ⟨(his i hi).1, fun he => absurd he hid⟩⟩

theorem Lists.insert_after {n : ℕ} {ids : Identities}
    (h : Lists sha256 supply (fun _ _ => True) n ids) (revoked : String) :
    Lists sha256 supply (After revoked n) (n + 1) (ids.insert revoked [jwkAt sha256 supply n]) := by
  intro id keys hl
  by_cases hid : id = revoked
  · subst hid
    rw [AList.lookup_insert] at hl
    cases hl
    exact ⟨[n], rfl, by simp [After]⟩
  · rw [AList.lookup_insert_ne hid] at hl
    obtain ⟨is, hkeys, his⟩ := h id keys hl
    exact ⟨is, hkeys, fun i hi => ⟨Nat.lt_succ_of_lt (his i hi).1, fun he => absurd he hid⟩⟩

variable {ε τ κ : Type} {kit : Kit ε τ κ} (lawful : kit.Lawful sha256) (hroot : PlainPath root)

include lawful

theorem Reads.readFrom {R : String → ℕ → Prop} {c₀ : ℕ} {s : Disk} {b : Bundle τ}
    (h : Sound sha256 supply root R c₀ s) (hb : Reads kit root s b) :
    ∃ td ids, s.tree.get (bundlePath root) = some (.file (.json (document (.str td) ids))) ∧
      ReadFrom kit td ids b ∧ Lists sha256 supply R s.generated b.identities := by
  obtain ⟨d, hd, hparse⟩ := hb
  obtain ⟨td, ids, rfl, hl⟩ := h.written d hd
  have hfrom := lawful.readFrom hparse
  exact ⟨td, ids, hd, hfrom, hl.readFrom hfrom⟩

include hroot

/-- After the call has returned, only later keys are listed under the name. -/
theorem Sound.revoked {removeFiles : PathName → Prog Cmd Ans ε Unit}
    (hfiles : ∀ (R : String → ℕ → Prop) (c₀ : ℕ) p t, Sound sha256 supply root R c₀ t →
      (removeFiles p).Sat (Disk.semantics supply) t (Sound sha256 supply root R c₀)
        fun _ _ => True) {s t : Disk}
    (h : Sound sha256 supply root (fun _ _ => True) 0 s) {name td : String} {call : Call}
    (hcall : Revokes name call) (htd : trustDomainAt root s = some td)
    (hret : (performWith kit removeFiles root call).Returns (Disk.semantics supply) s () t) :
    Sound sha256 supply root (After (serviceId td name) s.generated) s.generated t := by
  rcases hcall with rfl | rfl
  · obtain ⟨b, u, hreads, hunlisted, hremove⟩ := removeService_returns hroot lawful hret
    obtain ⟨td', ids, hget, hfrom, hl⟩ := hreads.readFrom lawful h
    have he : td' = td := Option.some_inj.mp ((trustDomainAt_document hroot hget).symm.trans htd)
    subst he
    have hu : Sound sha256 supply root (After (serviceId td' name) s.generated) s.generated u := by
      refine ⟨le_of_eq hunlisted.generated.symm, fun d hd => ?_⟩
      rw [hunlisted.nodes, if_pos rfl, hfrom.text, updated, hfrom.serialise] at hd
      cases hd
      exact ⟨td', _, rfl, by rw [hunlisted.generated]; exact hl.erase_after _⟩
    exact ((Prog.sat_iff _ _ _ _).mp (hfiles _ _ _ u hu)).1 t hremove.visits
  · obtain ⟨r, u, hrotate, hpure⟩ := Prog.returns_bind.mp hret
    obtain ⟨-, rfl⟩ := Prog.returns_pure.mp hpure
    obtain ⟨b, hreads, -, hrenewed⟩ := rotateService_returns hroot lawful hrotate
    obtain ⟨td', ids, hget, hfrom, hl⟩ := hreads.readFrom lawful h
    have he : td' = td := Option.some_inj.mp ((trustDomainAt_document hroot hget).symm.trans htd)
    subst he
    obtain ⟨k, others, hk, hothers, hnodes⟩ := hrenewed.nodes
    have hnil : others = [] := by
      have hnone : kit.keepOthers k (([] : List ℕ).map (jwkAt sha256 supply)) = .ok [] :=
        (jwk_of_generated lawful hk).2 []
      exact (Except.ok.inj (hnone.symm.trans hothers)).symm
    refine ⟨hrenewed.generated ▸ Nat.le_succ _, fun d hd => ?_⟩
    rw [hnodes, if_pos rfl, hfrom.text, updated, hfrom.serialise, hnil] at hd
    cases hd
    exact ⟨td', _, rfl, by rw [hrenewed.generated]; exact hl.insert_after _⟩

end

theorem Impl.Returns.revoked {rt : Runtime} {supply : ℕ → Point} {root : PathName}
    (hroot : PlainPath root) {s t : Disk}
    (h : Sound rt.sha256 supply root (fun _ _ => True) 0 s) {name td : String} {call : Call}
    (hcall : Revokes name call) (htd : trustDomainAt root s = some td) {impl : Impl}
    (hret : impl.Returns rt supply root call s t) :
    Sound rt.sha256 supply root (After (serviceId td name) s.generated) s.generated t := by
  cases impl with
  | python =>
    rw [Impl.Returns, Py.perform_eq] at hret
    exact h.revoked (Py.kit_lawful rt) hroot (fun _ _ => py_removeFiles_sat) hcall htd hret
  | typescript =>
    rw [Impl.Returns, Ts.perform_eq] at hret
    exact h.revoked (Ts.kit_lawful rt) hroot
      (fun _ _ p t ht => removeAll_sat p rt.lenient Ts.raised t ht) hcall htd hret
  | go =>
    rw [Impl.Returns, Go.perform_eq] at hret
    exact h.revoked (Go.kit_lawful rt) hroot (fun _ _ p t ht => removeAll_sat p false _ t ht)
      hcall htd hret

/-! ### Tokens -/

namespace Impl

/-- An element of a key list loads and accepts the signature. -/
def VerifiesUnder (libs : Libs) (jwk : Json) (input signatureText : String) : Impl → Prop
  | python => Py.VerifiesUnder libs.py jwk input signatureText
  | typescript => Ts.VerifiesUnder libs.node jwk input signatureText
  | go => Go.VerifiesUnder libs.go jwk input signatureText

/-- `verify` for an audience. Go's empty audience stands for the default one. -/
def verifyFor (libs : Libs) (own : SpiffeId) (file : BundleFile) (now : ℚ) (token : String)
    (audience : Option String) (leeway : ℚ) : Impl → Option Caller
  | python => (Py.verify libs.py own file now token audience leeway).toOption
  | typescript => (Ts.verify libs.node own file now token audience leeway).toOption
  | go => (Go.verify libs.go own file now token (audience.getD "") leeway).toOption

/-- The signature is accepted under the JWK of no other key. -/
def SignedBy (libs : Libs) (sha256 : Hash) (p : Point) (token : String) (verifier : Impl) : Prop :=
  ∀ h c s q, segments token = [h, c, s] →
    verifier.VerifiesUnder libs (.obj (q.jwk sha256)) (signingInput h c) s → q = p

end Impl

theorem toOption_eq_some {ε α : Type} {r : Except ε α} {a : α} (h : r.toOption = some a) :
    r = .ok a := by
  cases r with
  | ok b => exact congrArg Except.ok (Option.some_inj.mp h)
  | error e => cases h

/-- An accepted token verifies under a listed key of its subject. -/
theorem listed_of_verifyFor {libs : Libs} (hpy : libs.py.Documented) (hgo : libs.go.Documented)
    {own : SpiffeId} {td : String} {ids : Identities} {now leeway : ℚ} {token : String}
    {audience : Option String} {caller : Caller} {verifier : Impl}
    (h : verifier.verifyFor libs own (.doc (document (.str td) ids)) now token audience leeway =
      some caller) :
    ∃ c p s jwks, segments token = [c, p, s] ∧ ids.lookup caller.id.toString = some jwks ∧
      ∃ jwk ∈ jwks, verifier.VerifiesUnder libs jwk (signingInput c p) s := by
  cases verifier with
  | python =>
    obtain ⟨c, p, s, _, _, sub, hseg, _, _, _, _, _, _, hsub, _, _, jwks, ⟨d, hd, hb⟩, hjwk⟩ :=
      Py.justified_of_verify libs.py hpy _ _ _ _ _ _ _ (toOption_eq_some h)
    cases hd
    exact ⟨c, p, s, jwks, hseg, hsub ▸ binds_document hb, hjwk⟩
  | typescript =>
    obtain ⟨c, p, s, _, _, sub, hseg, _, _, _, _, _, _, hsub, _, _, jwks, ⟨d, hd, hb⟩, hjwk⟩ :=
      Ts.justified_of_verify libs.node _ _ _ _ _ _ _ (toOption_eq_some h)
    cases hd
    exact ⟨c, p, s, jwks, hseg, hsub ▸ binds_document hb, hjwk⟩
  | go =>
    obtain ⟨c, p, s, _, _, sub, hseg, _, _, _, _, _, _, hsub, _, _, jwks, ⟨d, hd, hb⟩, hjwk⟩ :=
      Go.justified_of_verify libs.go hgo _ _ _ _ _ _ _ (toOption_eq_some h)
    cases hd
    exact ⟨c, p, s, jwks, hseg, hsub ▸ go_binds_document hb, hjwk⟩

theorem listed_of_verify {libs : Libs} (hpy : libs.py.Documented) (hgo : libs.go.Documented)
    {own : SpiffeId} {td : String} {ids : Identities} {now leeway : ℚ} {token : String}
    {caller : Caller} {verifier : Impl}
    (h : verifier.verify libs own (.doc (document (.str td) ids)) now token leeway = some caller) :
    ∃ c p s jwks, segments token = [c, p, s] ∧ ids.lookup caller.id.toString = some jwks ∧
      ∃ jwk ∈ jwks, verifier.VerifiesUnder libs jwk (signingInput c p) s := by
  have hfor : verifier.verifyFor libs own (.doc (document (.str td) ids)) now token none leeway =
      some caller := by
    cases verifier <;> exact h
  exact listed_of_verifyFor hpy hgo hfor

theorem doc_of_verify {libs : Libs} (hpy : libs.py.Documented) (hgo : libs.go.Documented)
    {own : SpiffeId} {file : BundleFile} {now leeway : ℚ} {token : String} {caller : Caller}
    {verifier : Impl} (h : verifier.verify libs own file now token leeway = some caller) :
    ∃ d, file = .doc d := by
  cases verifier with
  | python =>
    obtain ⟨_, _, _, _, _, _, _, _, _, _, _, _, _, _, _, _, _, ⟨d, hd, _⟩, _⟩ :=
      Py.justified_of_verify libs.py hpy _ _ _ _ _ _ _ (toOption_eq_some h)
    exact ⟨d, hd⟩
  | typescript =>
    obtain ⟨_, _, _, _, _, _, _, _, _, _, _, _, _, _, _, _, _, ⟨d, hd, _⟩, _⟩ :=
      Ts.justified_of_verify libs.node _ _ _ _ _ _ _ (toOption_eq_some h)
    exact ⟨d, hd⟩
  | go =>
    obtain ⟨_, _, _, _, _, _, _, _, _, _, _, _, _, _, _, _, _, ⟨d, hd, _⟩, _⟩ :=
      Go.justified_of_verify libs.go hgo _ _ _ _ _ _ _ (toOption_eq_some h)
    exact ⟨d, hd⟩

/-- In a sound state only a key the rule allows under the subject can have
signed an accepted token. -/
theorem Sound.index_of_verify {sha256 : Hash} {supply : ℕ → Point} {root : PathName}
    {R : String → ℕ → Prop} {c₀ : ℕ} (hroot : PlainPath root) {s : Disk}
    (h : Sound sha256 supply root R c₀ s) {libs : Libs} (hpy : libs.py.Documented)
    (hgo : libs.go.Documented) {own : SpiffeId} {now leeway : ℚ} {token : String} {caller : Caller}
    {verifier : Impl} {p : Point} (hsigned : verifier.SignedBy libs sha256 p token)
    (hv : verifier.verify libs own (bundleFile root s) now token leeway = some caller) :
    ∃ i < s.generated, R caller.id.toString i ∧ supply i = p := by
  obtain ⟨d, hd⟩ := doc_of_verify hpy hgo hv
  obtain ⟨td, ids, rfl, hl⟩ := h.document hroot hd
  rw [hd] at hv
  obtain ⟨c, q, sig, jwks, hseg, hlook, jwk, hjwk, hunder⟩ := listed_of_verify hpy hgo hv
  obtain ⟨is, rfl, his⟩ := hl _ jwks hlook
  obtain ⟨i, hi, rfl⟩ := List.mem_map.mp hjwk
  exact ⟨i, (his i hi).1, (his i hi).2, hsigned c q sig (supply i) hseg hunder⟩

/-- Once a call that revokes the keys of a name has returned, none of the keys
bound to the name before is bound to it at any later point of the run, and a
token one of them signed is not accepted as coming from there. -/
theorem revocation_permanent (rt : Runtime) (supply : ℕ → Point) (root : PathName)
    (hroot : PlainPath root) (s₀ s₁ s₂ s₃ : Disk)
    (hfresh : s₀.tree.get (bundlePath root) = none) (hrun : Run rt supply root s₀ s₁)
    (impl : Impl) (call : Call) (name td : String) (hcall : Revokes name call)
    (htd : trustDomainAt root s₁ = some td) (hret : impl.Returns rt supply root call s₁ s₂)
    (hrun' : Run rt supply root s₂ s₃)
    (hsupply : Set.InjOn supply (Set.Iio s₃.generated)) (before : Impl) (p : Point)
    (hbound : before.BindsKey (bundleFile root s₁) (serviceId td name) p) :
    (∀ reader : Impl, ¬ reader.BindsKey (bundleFile root s₃) (serviceId td name) p) ∧
      ∀ (verifier : Impl) (libs : Libs) (own : SpiffeId) (now leeway : ℚ) (token : String)
        (caller : Caller), libs.py.Documented → libs.go.Documented →
        verifier.SignedBy libs rt.sha256 p token →
        verifier.verify libs own (bundleFile root s₃) now token leeway = some caller →
        caller.id.toString ≠ serviceId td name := by
  have h₁ := (Sound.fresh hfresh).run hroot (fun _ _ _ => trivial) hrun
  have h₂ := hret.revoked hroot h₁ hcall htd
  have h₃ := h₂.run hroot (admits_after _ _) hrun'
  obtain ⟨i, hi, -, hip⟩ := h₁.index_of_bindsKey hroot hbound
  -- the key came out of the supply before the call, those bound now after it
  have hold : ∀ j < s₃.generated, After (serviceId td name) s₁.generated (serviceId td name) j →
      supply j ≠ p := by
    intro j hj hafter hjp
    have hij : i = j := hsupply (Set.mem_Iio.mpr (lt_of_lt_of_le hi h₃.counted)) (Set.mem_Iio.mpr hj)
      (hip.trans hjp.symm)
    exact absurd (hafter rfl) (not_le.mpr (hij ▸ hi))
  refine ⟨fun reader hb => ?_, fun verifier libs own now leeway token caller hpy hgo hs hv he => ?_⟩
  · obtain ⟨j, hj, hafter, hjp⟩ := h₃.index_of_bindsKey hroot hb
    exact hold j hj hafter hjp
  · obtain ⟨j, hj, hafter, hjp⟩ := h₃.index_of_verify hroot hpy hgo hs hv
    exact hold j hj (he ▸ hafter) hjp

namespace Sample

def revoked : Disk := after (.removeService "x") registered
def reinstated : Disk := after (.addService "x") revoked

theorem registered_binds (reader : Impl) :
    reader.BindsKey (bundleFile root registered) "spiffe://a.b/x" basePoint := by
  have hget : registered.tree.get (bundlePath root) = some (.file (.json (document (.str "a.b")
      (AList.insert "spiffe://a.b/x" [jwkAt baseDigest supply 0] ∅)))) := rfl
  exact bindsKey_of_get plain_root hget rfl (AList.lookup_insert _)
    (List.mem_singleton_self _) reader

end Sample

theorem revocation_permanent_sample :
    ¬ Impl.go.BindsKey (bundleFile Sample.root Sample.reinstated) "spiffe://a.b/x"
      Sample.basePoint := by
  have hret : Impl.typescript.Returns Sample.runtime Sample.supply Sample.root
      (.removeService "x") Sample.registered Sample.revoked :=
    Sample.returns_after rfl
  have hsupply : Set.InjOn Sample.supply (Set.Iio Sample.reinstated.generated) := by
    have hcount : Sample.reinstated.generated = 2 := rfl
    exact hcount ▸ Sample.supply_injOn
  exact (revocation_permanent Sample.runtime Sample.supply Sample.root Sample.plain_root
    Sample.emptyDisk Sample.registered Sample.revoked Sample.reinstated rfl
    Sample.run_registered
    .typescript (.removeService "x") "x" "a.b" (Or.inl rfl) rfl hret
    (Sample.run_after _ _) hsupply .go Sample.basePoint (Sample.registered_binds .go)).1 .go

end Spiffile
