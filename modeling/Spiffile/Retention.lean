import Spiffile.Continuity

/-!
# The old keys behind a rotation

A rotation that keeps the old keys writes them behind the new one. Python and
TypeScript write the parsed values; Go decodes each into its struct and writes
the struct. This module says when the written list is the old one without the
keys of the new kid, value for value.
-/

namespace Spiffile

open FileTree

/-! ### JSON values, and the keys that stay -/

/-- A JSON value; the members of an object have no order, and of a repeated
name the last one counts. -/
def Json.value : Json → Json ⊕ (String → Option Json)
  | .obj ms => .inr (Members.get? ms)
  | v => .inl v

/-- A JWK object under another kid. -/
def otherKid (kid : String) : Json → Bool
  | .obj ms => !Json.jsStrictEq (Members.get? ms "kid") (some (.str kid))
  | _ => false

/-- The objects under other kids, in their order, each with the value it had. -/
def KeptExactly (kid : String) (old others : List Json) : Prop :=
  others.map Json.value = (old.filter (otherKid kid)).map Json.value

namespace Go

/-- The struct an object spells out: its seven members, all of them strings,
and no others. -/
def spelled : Json → Option JWK
  | .obj ms =>
    match Members.get? ms "kty", Members.get? ms "crv", Members.get? ms "x", Members.get? ms "y",
      Members.get? ms "kid", Members.get? ms "use", Members.get? ms "alg" with
    | some (.str kty), some (.str crv), some (.str x), some (.str y), some (.str kid),
      some (.str use), some (.str alg) =>
      if ms.all fun m => ["kty", "crv", "x", "y", "kid", "use", "alg"].contains m.1 then
        some ⟨kty, crv, x, y, kid, use, alg⟩
      else none
    | _, _, _, _, _, _, _ => none
  | _ => none

/-- The structs Go decodes from a list, those of the new kid left out. -/
def decodedOthers (kid : String) (old : List Json) : List JWK :=
  old.filterMap fun raw => (decodeJwk raw).filter fun jwk => jwk.kid ≠ kid

theorem spelled_iff (e : Json) (j : JWK) : spelled e = some j ↔ e.value = j.marshal.value := by
  have hnames : ∀ (ms : Members) (name : String),
      (ms.all fun m => ["kty", "crv", "x", "y", "kid", "use", "alg"].contains m.1) = true →
      name ∉ ["kty", "crv", "x", "y", "kid", "use", "alg"] → Members.get? ms name = none := by
    intro ms name hall hname
    rw [Members.get?_eq_none_iff]
    intro hmem
    obtain ⟨m, hm, rfl⟩ := List.mem_map.mp hmem
    have hin := List.all_eq_true.mp hall m hm
    rw [List.contains_iff_mem] at hin
    exact hname hin
  constructor
  · intro h
    unfold spelled at h
    split at h
    · next ms =>
      split at h
      · next h1 h2 h3 h4 h5 h6 h7 =>
        split_ifs at h with hall
        cases h
        refine congrArg Sum.inr (funext fun name => ?_)
        by_cases hname : name ∈ ["kty", "crv", "x", "y", "kid", "use", "alg"]
        · simp only [List.mem_cons, List.not_mem_nil, or_false] at hname
          rcases hname with rfl | rfl | rfl | rfl | rfl | rfl | rfl
          · exact h1
          · exact h2
          · exact h3
          · exact h4
          · exact h5
          · exact h6
          · exact h7
        · rw [hnames ms name hall hname]
          exact (hnames _ name rfl hname).symm
      · cases h
    · cases h
  · intro h
    cases e with
    | obj ms =>
      have hget : Members.get? ms = _ := Sum.inr.inj h
      have hall : (ms.all fun m => ["kty", "crv", "x", "y", "kid", "use", "alg"].contains m.1) =
          true := by
        rw [List.all_eq_true]
        intro m hm
        rw [List.contains_iff_mem]
        by_contra hname
        have hnone : Members.get? ms m.1 = none := by
          rw [hget]
          exact hnames _ m.1 rfl hname
        rw [Members.get?_eq_none_iff] at hnone
        exact hnone (List.mem_map.mpr ⟨m, hm, rfl⟩)
      rw [spelled, hget]
      exact if_pos hall
    | null => cases h
    | bool b => cases h
    | int n => cases h
    | dec q => cases h
    | str t => cases h
    | arr xs => cases h

theorem filter_name {ms : Members} (hn : (ms.map Prod.fst).Nodup) {name : String} {v : Json}
    (h : Members.get? ms name = some v) : ms.filter (fun m => m.1 = name) = [(name, v)] := by
  induction ms with
  | nil => cases h
  | cons m ms ih =>
    obtain ⟨k, w⟩ := m
    rw [List.map_cons, List.nodup_cons] at hn
    by_cases hk : k = name
    · subst hk
      have hnone : Members.get? ms k = none := (Members.get?_eq_none_iff ms k).mpr hn.1
      have hrest : ms.filter (fun m => m.1 = k) = [] := by
        rw [List.filter_eq_nil_iff]
        intro m hm hmk
        have hmk' : m.1 = k := by simpa using hmk
        exact hn.1 (List.mem_map.mpr ⟨m, hm, hmk'⟩)
      simp only [Members.get?, hnone, if_true, Option.some.injEq] at h
      rw [List.filter_cons_of_pos (by simp), hrest, h]
    · have hget : Members.get? ms name = some v := by
        simp only [Members.get?, hk, if_false] at h
        split at h
        · next w' hw' => rw [hw', h]
        · cases h
      rw [List.filter_cons_of_neg (by simp [hk]), ih hn.2 hget]

/-- Go decodes what is spelled out, if no member is repeated. -/
theorem decodeJwk_of_spelled {ms : Members} (hn : (ms.map Prod.fst).Nodup) {j : JWK}
    (h : spelled (.obj ms) = some j) : decodeJwk (.obj ms) = some j := by
  have hvalue := Sum.inr.inj ((spelled_iff _ j).mp h)
  have hnames : ∀ m ∈ ms, m.1 ∈ ["kty", "crv", "x", "y", "kid", "use", "alg"] := by
    intro m hm
    by_contra hname
    have hnone : Members.get? ms m.1 = none :=
      (congrFun hvalue m.1).trans ((Members.get?_eq_none_iff _ m.1).mpr hname)
    rw [Members.get?_eq_none_iff] at hnone
    exact hnone (List.mem_map.mpr ⟨m, hm, rfl⟩)
  have hfold : ∀ a ∈ ["kty", "crv", "x", "y", "kid", "use", "alg"],
      ∀ b ∈ ["kty", "crv", "x", "y", "kid", "use", "alg"], foldName a = foldName b → a = b := by
    decide
  have hfield : ∀ name ∈ ["kty", "crv", "x", "y", "kid", "use", "alg"], ∀ v,
      Members.get? ms name = some v → fieldValues name ms = [v] := by
    intro name hname v hv
    have hsame : ms.filter (fun m => foldName m.1 == foldName name) =
        ms.filter (fun m => m.1 = name) := by
      refine List.filter_congr fun m hm => ?_
      rw [Bool.eq_iff_iff, beq_iff_eq, decide_eq_true_eq]
      constructor
      · exact hfold m.1 (hnames m hm) name hname
      · exact congrArg foldName
    rw [fieldValues, hsame, filter_name hn hv]
    rfl
  have hmember : ∀ name ∈ ["kty", "crv", "x", "y", "kid", "use", "alg"], ∀ t,
      Members.get? ms name = some (.str t) → decodeString (fieldValues name ms) = some t := by
    intro name hname t ht
    rw [hfield name hname _ ht]
    rfl
  have hget := congrFun hvalue
  simp only [decodeJwk, hmember "kty" (by simp) j.kty (hget _), hmember "crv" (by simp) j.crv (hget _),
    hmember "x" (by simp) j.x (hget _), hmember "y" (by simp) j.y (hget _),
    hmember "kid" (by simp) j.kid (hget _), hmember "use" (by simp) j.use (hget _),
    hmember "alg" (by simp) j.alg (hget _)]
  rfl

end Go

/-! ### What each implementation keeps -/

theorem value_obj {e : Json} {ms : Members} (h : e.value = (Json.obj ms).value) :
    ∃ ms', e = .obj ms' := by
  cases e with
  | obj ms' => exact ⟨ms', rfl⟩
  | null => cases h
  | bool b => cases h
  | int n => cases h
  | dec q => cases h
  | str t => cases h
  | arr xs => cases h

theorem otherKid_obj {kid : String} {e : Json} (h : otherKid kid e = true) : ∃ ms, e = .obj ms := by
  unfold otherKid at h
  split at h
  · exact ⟨_, rfl⟩
  · cases h

/-- The old keys come through: always for Python, objects for TypeScript, and
for Go the objects that its struct spells out, if it decodes those and no
others. -/
def Impl.Carries (kid : String) (old : List Json) : Impl → Prop
  | python => True
  | typescript => ∀ e ∈ old, ∃ ms, e = .obj ms
  | go => (old.filter (otherKid kid)).map Go.spelled = (Go.decodedOthers kid old).map some

theorem Py.keepOthers_filter {new : Members} {kid : String}
    (hnew : Members.get? new "kid" = some (.str kid)) {old others : List Json}
    (h : keepOthers new old = .ok others) : others = old.filter (otherKid kid) := by
  unfold keepOthers at h
  split at h
  · cases h
  · next dicts hd =>
    cases h
    rw [asDicts_eq_some hd, List.filter_map]
    congr 1
    refine List.filter_congr fun ms _ => ?_
    have hsame : Json.pyGetEq (Members.get? ms "kid") (Members.get? new "kid") =
        Json.jsStrictEq (Members.get? ms "kid") (some (.str kid)) := by
      rw [hnew, Bool.eq_iff_iff, Json.pyGetEq_str, Json.jsStrictEq_str]
    rw [hsame]
    rfl

/-- TypeScript passes over `null` with an error, and keeps what is no object. -/
theorem Ts.keepOthers_filter {new : Members} {kid : String}
    (hnew : Members.get? new "kid" = some (.str kid)) {old others : List Json}
    (h : keepOthers new old = .ok others) :
    others = old.filter fun e =>
      !Json.jsStrictEq ((Json.jsProp? e "kid").getD none) (some (.str kid)) := by
  unfold keepOthers at h
  rw [hnew] at h
  split at h
  · cases h
  · next kids hkids =>
    cases h
    induction old generalizing kids with
    | nil =>
      cases hkids
      rfl
    | cons e old ih =>
      rw [List.mapM_cons] at hkids
      obtain ⟨pair, hpair, hrest⟩ := Option.bind_eq_some_iff.mp hkids
      obtain ⟨v, hv, rfl⟩ := Option.map_eq_some_iff.mp hpair
      obtain ⟨rest, hmap, hcons⟩ := Option.bind_eq_some_iff.mp hrest
      cases hcons
      rw [List.filter_cons, List.filter_cons, hv, Option.getD_some, ← ih rest hmap]
      split_ifs
      · rfl
      · rfl

theorem Ts.keptExactly_iff {kid : String} {old : List Json} :
    KeptExactly kid old (old.filter fun e =>
      !Json.jsStrictEq ((Json.jsProp? e "kid").getD none) (some (.str kid))) ↔
      Impl.typescript.Carries kid old := by
  constructor
  · intro h e he
    by_contra hno
    have hkept : e ∈ old.filter fun e =>
        !Json.jsStrictEq ((Json.jsProp? e "kid").getD none) (some (.str kid)) := by
      refine List.mem_filter.mpr ⟨he, ?_⟩
      cases e with
      | obj ms => exact absurd ⟨ms, rfl⟩ hno
      | null => rfl
      | bool b => rfl
      | int n => rfl
      | dec q => rfl
      | str t => rfl
      | arr xs => rfl
    have hvalue : e.value ∈ (old.filter (otherKid kid)).map Json.value := by
      rw [← show _ = _ from h]
      exact List.mem_map_of_mem hkept
    obtain ⟨a, ha, hae⟩ := List.mem_map.mp hvalue
    obtain ⟨ms, rfl⟩ := otherKid_obj (List.mem_filter.mp ha).2
    exact hno (value_obj hae.symm)
  · intro h
    refine congrArg (List.map Json.value) (List.filter_congr fun e he => ?_)
    obtain ⟨ms, rfl⟩ := h e he
    rfl

theorem map_eq_map_iff_of {α β γ δ : Type} {f : α → γ} {g : β → γ} {f' : α → δ} {g' : β → δ}
    (h : ∀ a b, f a = g b ↔ f' a = g' b) (l : List α) (l' : List β) :
    l.map f = l'.map g ↔ l.map f' = l'.map g' := by
  induction l generalizing l' with
  | nil => cases l' <;> simp
  | cons a l ih =>
    cases l' with
    | nil => simp
    | cons b l' => simp only [List.map_cons, List.cons.injEq, h a b, ih l']

theorem Go.keptExactly_iff {kid : String} {old : List Json} :
    KeptExactly kid old ((decodedOthers kid old).map JWK.marshal) ↔ Impl.go.Carries kid old := by
  rw [KeptExactly, List.map_map]
  constructor
  · intro h
    exact (map_eq_map_iff_of (fun e j => (spelled_iff e j).symm) _ _).mp h.symm
  · intro h
    exact ((map_eq_map_iff_of (fun e j => (spelled_iff e j).symm) _ _).mpr h).symm

/-- It is enough that each old key is spelled out, no member repeated. -/
theorem Go.carries_of_spelled {kid : String} {old : List Json}
    (h : ∀ e ∈ old, ∃ ms j, e = .obj ms ∧ (ms.map Prod.fst).Nodup ∧ spelled e = some j) :
    Impl.go.Carries kid old := by
  unfold Impl.Carries
  induction old with
  | nil => rfl
  | cons e old ih =>
    obtain ⟨ms, j, rfl, hn, hj⟩ := h e List.mem_cons_self
    have hrest := ih fun e' he' => h e' (List.mem_cons_of_mem _ he')
    have hget : Members.get? ms "kid" = some (.str j.kid) :=
      congrFun (Sum.inr.inj ((spelled_iff _ j).mp hj)) "kid"
    have hother : otherKid kid (.obj ms) = decide (j.kid ≠ kid) := by
      rw [otherKid, hget, Bool.eq_iff_iff, Bool.not_eq_true', Bool.eq_false_iff, ne_eq,
        Json.jsStrictEq_str, decide_eq_true_eq]
      simp
    have hstep : decodedOthers kid (.obj ms :: old) =
        if j.kid ≠ kid then j :: decodedOthers kid old else decodedOthers kid old := by
      by_cases hkid : j.kid = kid <;>
        simp [decodedOthers, decodeJwk_of_spelled hn hj, Option.filter, hkid]
    rw [hstep, List.filter_cons, hother]
    by_cases hkid : j.kid = kid
    · simpa [hkid] using hrest
    · simpa [hkid, hj] using hrest

theorem Impl.Kept.exactly_iff {rt : Runtime} {new : Point} {old others : List Json} {impl : Impl}
    (h : impl.Kept rt new old others) :
    KeptExactly (new.kid rt.sha256) old others ↔ impl.Carries (new.kid rt.sha256) old := by
  have hkid := get?_jwk_kid rt.sha256 new
  cases impl with
  | python =>
    rw [Py.keepOthers_filter hkid h]
    exact iff_of_true rfl trivial
  | typescript =>
    rw [Ts.keepOthers_filter hkid h]
    exact Ts.keptExactly_iff
  | go =>
    have hothers : others = (Go.decodedOthers (new.kid rt.sha256) old).map Go.JWK.marshal := by
      rw [← go_publicJwk_kid rt.table rt.sha256 new]
      exact h
    rw [hothers]
    exact Go.keptExactly_iff

/-! ### In the bundle -/

namespace Impl

variable (rt : Runtime) (root : PathName) (name : String)

/-- The ID the implementation gives the service, from the bundle it reads. -/
def serviceIdIn (file : BundleFile) : Impl → Option String
  | python => (Py.readBundle file).toOption.map fun b =>
    serviceId ((Py.kit rt).text b.trustDomain) name
  | typescript => (Ts.sourceGet file).toOption.map fun b => serviceId b.trustDomain name
  | go => (Go.readBundle file).toOption.map fun b => serviceId b.trustDomain name

/-- The keys bound to the service before the call. -/
def oldKeys (s : Disk) (impl : Impl) : List Json :=
  ((impl.serviceIdIn rt name (bundleFile root s)).bind
    fun id => impl.bound (bundleFile root s) id).getD []

/-- The key list of the service in the document at the end of the call. -/
def Lists (s t : Disk) (keys : List Json) (impl : Impl) : Prop :=
  ∃ id d, impl.serviceIdIn rt name (bundleFile root s) = some id ∧ bundleFile root t = .doc d ∧
    Binds d id keys

/-- The new key, and then the old ones under other kids as they were. -/
def Retains (new : Point) (s t : Disk) (impl : Impl) : Prop :=
  ∃ others, impl.Lists rt root name s t (.obj (new.jwk rt.sha256) :: others) ∧
    KeptExactly (new.kid rt.sha256) (impl.oldKeys rt root name s) others

/-- Two calls that end with the same list. -/
def SameKeys (impl impl' : Impl) (s t t' : Disk) : Prop :=
  ∃ keys keys', impl.Lists rt root name s t keys ∧ impl'.Lists rt root name s t' keys' ∧
    keys.map Json.value = keys'.map Json.value

end Impl

theorem binds_unique {d : Json} {id : String} {keys keys' : List Json} (h : Binds d id keys)
    (h' : Binds d id keys') : keys = keys' := by
  obtain ⟨ms, es, entry, rfl, hes, hentry, hkeys⟩ := h
  obtain ⟨ms', es', entry', hd, hes', hentry', hkeys'⟩ := h'
  cases hd
  cases hes.symm.trans hes'
  cases hentry.symm.trans hentry'
  exact Option.some_inj.mp (hkeys.symm.trans hkeys')

theorem binds_of_lookup {td : Json} {id : String} {ids : Identities} {keys : List Json}
    (h : ids.lookup id = some keys) : Binds (document td ids) id keys := by
  refine ⟨_, _, .obj [("keys", .arr keys)], rfl, rfl, ?_, rfl⟩
  rw [get?_map_entries ids fun keys => .obj [("keys", .arr keys)], h]
  rfl

theorem Impl.Lists.unique {rt : Runtime} {root : PathName} {name : String} {s t : Disk}
    {keys keys' : List Json} {impl : Impl} (h : impl.Lists rt root name s t keys)
    (h' : impl.Lists rt root name s t keys') : keys = keys' := by
  obtain ⟨id, d, hid, hd, hbinds⟩ := h
  obtain ⟨id', d', hid', hd', hbinds'⟩ := h'
  cases hid.symm.trans hid'
  cases hd.symm.trans hd'
  exact binds_unique hbinds hbinds'

/-- What the implementation finds in a bundle is what the kit reads of it. -/
def Kit.Finds {ε τ κ : Type} (kit : Kit ε τ κ) (rt : Runtime) (impl : Impl) : Prop :=
  ∀ d b name, kit.parseBundle (kit.file (.ok (.json d))) = .ok b →
    impl.serviceIdIn rt name (.doc d) = some (serviceId (kit.text b.trustDomain) name) ∧
      (∃ td, ∀ ids, kit.serialise ⟨b.trustDomain, ids⟩ = document td ids) ∧
      ∀ id, impl.bound (.doc d) id = b.identities.lookup id

theorem Py.kit_finds (rt : Runtime) : (Py.kit rt).Finds rt .python := by
  intro d b name hparse
  have hb : Py.readBundle (.doc d) = .ok b := hparse
  refine ⟨?_, ⟨b.trustDomain, fun _ => rfl⟩, fun id => ?_⟩
  · rw [Impl.serviceIdIn, hb]
    rfl
  · rw [Impl.bound, hb]
    rfl

theorem Ts.kit_finds (rt : Runtime) : (Ts.kit rt).Finds rt .typescript := by
  intro d b name hparse
  have hb : Ts.sourceGet (.doc d) = .ok b := hparse
  refine ⟨?_, ⟨.str b.trustDomain, fun _ => rfl⟩, fun id => ?_⟩
  · rw [Impl.serviceIdIn, hb]
    rfl
  · rw [Impl.bound, hb]
    rfl

theorem Go.kit_finds (rt : Runtime) : (Go.kit rt).Finds rt .go := by
  intro d b name hparse
  have hb : Go.readBundle (.doc d) = .ok b := hparse
  refine ⟨?_, ⟨.str b.trustDomain, fun _ => rfl⟩, fun id => ?_⟩
  · rw [Impl.serviceIdIn, hb]
    rfl
  · rw [Impl.bound, hb]
    rfl

section

variable {rt : Runtime} {supply : ℕ → Point} {root : PathName} (hroot : PlainPath root) {s t : Disk}
  {name : String}

include hroot

theorem rotated_lists {ε τ κ : Type} {kit : Kit ε τ κ} (lawful : kit.Lawful rt.sha256) {impl : Impl}
    (hfinds : kit.Finds rt impl) (hkeeper : kit.Keeper rt impl) {r : SpiffeId}
    (h : (rotateServiceWith kit root name true).Returns (Disk.semantics supply) s r t) :
    ∃ others, impl.Kept rt (supply s.generated) (impl.oldKeys rt root name s) others ∧
      impl.Lists rt root name s t (jwkAt rt.sha256 supply s.generated :: others) := by
  obtain ⟨b, ⟨d, hd, hparse⟩, -, hrenewed⟩ := rotateService_returns hroot lawful h
  obtain ⟨hid, ⟨td, hserialise⟩, hbound⟩ := hfinds d b name hparse
  rw [← bundleFile_of_get hroot hd] at hid
  obtain ⟨k, others, hk, hothers, hnodes⟩ := hrenewed.nodes
  have hdoc := (hnodes (bundlePath root)).trans (if_pos rfl)
  rw [updated, hserialise] at hdoc
  refine ⟨others, ?_, _, _, hid, bundleFile_of_get hroot hdoc, ?_⟩
  · have hold : impl.oldKeys rt root name s =
        (b.identities.lookup (serviceId (kit.text b.trustDomain) name)).getD [] := by
      rw [Impl.oldKeys, hid, Option.bind_some, bundleFile_of_get hroot hd, hbound]
    rw [hold]
    exact hkeeper _ _ _ _ hk hothers
  · exact binds_of_lookup (AList.lookup_insert _)

theorem Impl.Returns.lists {impl : Impl}
    (hret : impl.Returns rt supply root (.rotateService name true) s t) :
    ∃ others, impl.Kept rt (supply s.generated) (impl.oldKeys rt root name s) others ∧
      impl.Lists rt root name s t (jwkAt rt.sha256 supply s.generated :: others) := by
  cases impl with
  | python =>
    obtain ⟨r, u, hrotate, hpure⟩ := Prog.returns_bind.mp hret
    obtain ⟨-, rfl⟩ := Prog.returns_pure.mp hpure
    exact rotated_lists hroot (Py.kit_lawful rt) (Py.kit_finds rt) (Py.kit_keeper rt) hrotate
  | typescript =>
    obtain ⟨r, u, hrotate, hpure⟩ := Prog.returns_bind.mp hret
    obtain ⟨-, rfl⟩ := Prog.returns_pure.mp hpure
    exact rotated_lists hroot (Ts.kit_lawful rt) (Ts.kit_finds rt) (Ts.kit_keeper rt) hrotate
  | go =>
    obtain ⟨r, u, hrotate, hpure⟩ := Prog.returns_bind.mp hret
    obtain ⟨-, rfl⟩ := Prog.returns_pure.mp hpure
    exact rotated_lists hroot (Go.kit_lawful rt) (Go.kit_finds rt) (Go.kit_keeper rt) hrotate

theorem Impl.Returns.retains_iff {impl : Impl}
    (hret : impl.Returns rt supply root (.rotateService name true) s t) :
    impl.Retains rt root name (supply s.generated) s t ↔
      impl.Carries ((supply s.generated).kid rt.sha256) (impl.oldKeys rt root name s) := by
  obtain ⟨others, hkept, hlists⟩ := hret.lists hroot
  rw [← hkept.exactly_iff]
  constructor
  · rintro ⟨others', hlists', hexactly⟩
    cases hlists.unique hlists'
    exact hexactly
  · intro hexactly
    exact ⟨others, hlists, hexactly⟩

end

namespace Sample

/-- The disk after a call of the Go implementation. -/
def afterGo (call : Call) (s : Disk) : Disk :=
  ((Go.perform runtime root call).run (Disk.semantics supply) s).2

theorem returns_afterGo {call : Call} {s : Disk}
    (h : ((Go.perform runtime root call).run (Disk.semantics supply) s).1.isOk = true) :
    Impl.go.Returns runtime supply root call s (afterGo call s) := by
  obtain ⟨u, hu⟩ := exists_of_isOk h
  exact Prod.ext hu rfl

/-- The members of a P-256 key, and others. -/
def keyWith (more : Members) : Json :=
  .obj ([("kty", .str "EC"), ("crv", .str "P-256"), ("x", .str "AA"), ("y", .str "AA"),
    ("kid", .str "k1"), ("use", .str "jwt-svid"), ("alg", .str "ES256")] ++ more)

/-- The registered service bound to this key. -/
def boundTo (key : Json) : Disk :=
  registered.withBundle root
    (.json (document (.str "a.b") (AList.singleton "spiffe://a.b/x" [key])))

theorem boundTo_file (key : Json) : bundleFile root (boundTo key) =
    .doc (document (.str "a.b") (AList.singleton "spiffe://a.b/x" [key])) := by
  have hput : registered.tree.Puttable (bundlePath root) := by decide
  refine bundleFile_of_get plain_root ?_
  rw [boundTo, Disk.withBundle, Volume.get_put hput, if_pos rfl]

theorem oldKeys_boundTo (key : Json) : Impl.go.oldKeys runtime root "x" (boundTo key) = [key] := by
  obtain ⟨b, ws, hb, htd, -⟩ := go_parseBundle_document "a.b" (AList.singleton "spiffe://a.b/x" [key])
  have hid : Impl.go.serviceIdIn runtime "x" (bundleFile root (boundTo key)) =
      some "spiffe://a.b/x" := by
    rw [boundTo_file, Impl.serviceIdIn, Go.readBundle, hb]
    simp only [Except.map, Except.toOption, Option.map_some, htd]
    rfl
  have hback : readBack "a.b" (AList.singleton "spiffe://a.b/x" [key]) "spiffe://a.b/x" = some [key] :=
    readBack_sender _ (by simp)
  rw [Impl.oldKeys, hid, Option.bind_some, boundTo_file, bound_document, hback, Option.getD_some]

end Sample

end Spiffile
