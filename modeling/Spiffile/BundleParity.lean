import Spiffile.Mint

/-!
# One bundle, three parsers

What a trust bundle says is read off its members by their exact names; each
parser is held against that reading. The parsers part where a member has a type
its language blurs: Python takes `true` and `1.0` for 1 and any value for a
trust domain, JavaScript takes an array for an object, and Go takes a name in
other letters for the name.
-/

namespace Spiffile

/-- An object with a string `trust_domain`, the integer 1 as
`spiffile_version` and an object as `identities`. -/
def Expected (d : Json) (trustDomain : String) (es : Members) : Prop :=
  ∃ ms, d = .obj ms ∧ Members.get? ms "trust_domain" = some (.str trustDomain) ∧
    Members.get? ms "spiffile_version" = some (.int bundleVersion) ∧
    Members.get? ms "identities" = some (.obj es)

/-- The entries to keep: those under a SPIFFE ID of the trust domain whose
value is an object with a non-empty array `keys`. -/
def expectedKeys (trustDomain : String) (es : Members) (s : String) : Option (List Json) :=
  (Members.get? es s).bind (keptKeys (fun td => td == trustDomain) keysMember s)

theorem Expected.unique {d : Json} {td td' : String} {es es' : Members} (h : Expected d td es)
    (h' : Expected d td' es') : td = td' ∧ es = es' := by
  obtain ⟨ms, rfl, htd, -, hes⟩ := h
  obtain ⟨ms', hms, htd', -, hes'⟩ := h'
  cases hms
  rw [htd] at htd'
  rw [hes] at hes'
  cases htd'
  cases hes'
  exact ⟨rfl, rfl⟩

namespace Impl

/-- The trust domain and the map of an accepted document. -/
def parsed (d : Json) : Impl → Option (Json × (String → Option (List Json)))
  | python => (Py.fromDict d).toOption.map fun b => (b.trustDomain, fun s => b.identities.lookup s)
  | typescript =>
    (Ts.fromDocument d).toOption.map fun b => (.str b.trustDomain, fun s => b.identities.lookup s)
  | go =>
    (Go.parseBundle d).toOption.map fun r => (.str r.1.trustDomain, fun s => r.1.identities.lookup s)

/-- The document is refused with the bundle error; any error of `ParseBundle`
is one. -/
def refuses (d : Json) : Impl → Prop
  | python => ∃ fault, Py.fromDict d = .error (.invalidBundle fault)
  | typescript => ∃ fault, Ts.fromDocument d = .error (.invalidBundle fault)
  | go => ∃ e, Go.parseBundle d = .error e

/-- A document is accepted with what it says, or it says nothing and is
refused. -/
structure Conforms (d : Json) (impl : Impl) : Prop where
  accepts : ∀ td es, Expected d td es → impl.parsed d = some (.str td, expectedKeys td es)
  rejects : (¬ ∃ td es, Expected d td es) → impl.refuses d

end Impl

/-! ### Python -/

/-- With all members and a version that Python finds equal to 1, the trust
domain is a string, the version the integer and `identities` an object. -/
def Py.Clear (d : Json) : Prop :=
  ∀ ms trustDomain version identities, d = .obj ms →
    Members.get? ms "trust_domain" = some trustDomain →
    Members.get? ms "spiffile_version" = some version →
    Members.get? ms "identities" = some identities →
    Json.pyEq version (.int bundleVersion) = true →
    (∃ td, trustDomain = .str td) ∧ version = .int bundleVersion ∧ ∃ es, identities = .obj es

theorem Py.fromDict_expected {d : Json} {td : String} {es : Members} (h : Expected d td es) :
    Impl.python.parsed d = some (.str td, expectedKeys td es) := by
  obtain ⟨ms, rfl, htd, hversion, hes⟩ := h
  have heq : Json.pyEq (.int bundleVersion) (.int bundleVersion) = true := rfl
  have hmap : (fun s => (collect (Py.entry (.str td)) (Members.items es)).lookup s) =
      expectedKeys td es := by
    funext s
    rw [py_lookup]
    rfl
  simp only [Impl.parsed, Py.fromDict, htd, hversion, hes, heq, not_true, if_false,
    Except.toOption, Option.map_some, hmap]

theorem Py.conforms_iff (d : Json) : Impl.python.Conforms d ↔ Py.Clear d := by
  constructor
  · intro hc ms trustDomain version identities hd htd hversion hidentities heq
    by_cases hexp : ∃ td es, Expected d td es
    · obtain ⟨td, es, ms', hd', htd', hversion', hes'⟩ := hexp
      rw [hd] at hd'
      cases hd'
      rw [htd] at htd'
      rw [hversion] at hversion'
      rw [hidentities] at hes'
      cases htd'
      cases hversion'
      cases hes'
      exact ⟨⟨td, rfl⟩, rfl, es, rfl⟩
    · -- the document is refused, but no check refuses it
      exfalso
      obtain ⟨fault, hf⟩ := hc.rejects hexp
      subst hd
      simp only [Py.fromDict, htd, hversion, hidentities, heq, not_true, if_false] at hf
      cases identities <;> cases hf
  · intro hclear
    constructor
    · intro td es hexp
      exact Py.fromDict_expected hexp
    · intro hno
      change ∃ fault, Py.fromDict d = .error (.invalidBundle fault)
      unfold Py.fromDict
      split
      · next ms =>
        split
        · next trustDomain version identities htd hversion hidentities =>
          by_cases heq : Json.pyEq version (.int bundleVersion) = true
          · obtain ⟨⟨td, rfl⟩, rfl, es, rfl⟩ :=
              hclear ms trustDomain version identities rfl htd hversion hidentities heq
            exact absurd ⟨td, es, ms, rfl, htd, hversion, hidentities⟩ hno
          · rw [if_pos heq]
            exact ⟨_, rfl⟩
        · exact ⟨_, rfl⟩
      · exact ⟨_, rfl⟩

/-! ### TypeScript -/

/-- With a string `trust_domain`, a version and an object or array as
`identities`: a version equal to 1 is the integer and `identities` an object;
any other can be printed into the message. -/
def Ts.Clear (d : Json) : Prop :=
  ∀ ms td version identities, d = .obj ms →
    Members.get? ms "trust_domain" = some (.str td) →
    Members.get? ms "spiffile_version" = some version →
    Members.get? ms "identities" = some identities → Ts.isObject identities = true →
    if Json.jsStrictEq (some version) (some (.int bundleVersion)) then
      version = .int bundleVersion ∧ ∃ es, identities = .obj es
    else Json.jsPrints version = true

theorem Ts.fromDocument_expected {d : Json} {td : String} {es : Members} (h : Expected d td es) :
    Impl.typescript.parsed d = some (.str td, expectedKeys td es) := by
  obtain ⟨ms, rfl, htd, hversion, hes⟩ := h
  have heq : Json.jsStrictEq (some (.int bundleVersion)) (some (.int bundleVersion)) = true := by
    rfl
  have hmap : (fun s => (collect (Ts.entry td) (Ts.objectEntries (.obj es))).lookup s) =
      expectedKeys td es := by
    funext s
    exact ts_lookup td es s
  simp only [Impl.parsed, Ts.fromDocument, Ts.fromMembers, htd, hversion, hes, Ts.isObject, heq,
    not_true, if_false, Except.toOption, Option.map_some, hmap]

theorem Ts.conforms_iff (d : Json) : Impl.typescript.Conforms d ↔ Ts.Clear d := by
  constructor
  · intro hc ms td version identities hd htd hversion hidentities hobj
    by_cases hexp : ∃ td es, Expected d td es
    · obtain ⟨td', es, ms', hd', -, hversion', hes'⟩ := hexp
      rw [hd] at hd'
      cases hd'
      rw [hversion] at hversion'
      rw [hidentities] at hes'
      cases hversion'
      cases hes'
      have heq : Json.jsStrictEq (some (.int bundleVersion)) (some (.int bundleVersion)) = true := by
        rfl
      rw [if_pos heq]
      exact ⟨rfl, es, rfl⟩
    · obtain ⟨fault, hf⟩ := hc.rejects hexp
      subst hd
      simp only [Ts.fromDocument, Ts.fromMembers, htd, hversion, hidentities, hobj, not_true,
        if_false] at hf
      split_ifs at hf ⊢ with heq hprints
      · exact hprints
      · cases hf
  · intro hclear
    constructor
    · intro td es hexp
      exact Ts.fromDocument_expected hexp
    · intro hno
      change ∃ fault, Ts.fromDocument d = .error (.invalidBundle fault)
      unfold Ts.fromDocument
      split
      · next ms =>
        unfold Ts.fromMembers
        split
        · next td version identities htd hversion hidentities =>
          cases hobj : Ts.isObject identities with
          | false => exact ⟨.missingMember, rfl⟩
          | true =>
            have hc := hclear ms td version identities rfl htd hversion hidentities hobj
            cases heq : Json.jsStrictEq (some version) (some (.int bundleVersion)) with
            | false =>
              rw [heq, if_neg Bool.false_ne_true] at hc
              exact ⟨.unsupportedVersion, by simp [hc]⟩
            | true =>
              rw [heq, if_pos rfl] at hc
              obtain ⟨rfl, es, rfl⟩ := hc
              exact absurd ⟨td, es, ms, rfl, htd, hversion, hidentities⟩ hno
        · exact ⟨_, rfl⟩
      · exact ⟨_, rfl⟩
      · exact ⟨_, rfl⟩

/-! ### Go -/

/-- Go's decoding, which folds the case of member names and merges repeated
ones, finds a trust domain, version 1 and the entries to keep exactly where the
exact names have them. -/
structure Go.Clear (d : Json) : Prop where
  complete : ∀ td es, Expected d td es → ∃ folded,
    Go.decodeRaw d = some ⟨some td, some bundleVersion, some folded⟩
  sound : ∀ td folded, Go.decodeRaw d = some ⟨some td, some bundleVersion, some folded⟩ →
    ∃ es, Expected d td es ∧ ∀ s, (Members.get? folded s).bind
      (keptKeys (fun t => t == td) Go.decodeKeySet s) = expectedKeys td es s

theorem Go.parsed_eq {d : Json} {td : String} {folded : Members}
    (h : Go.decodeRaw d = some ⟨some td, some bundleVersion, some folded⟩) :
    Impl.go.parsed d = some (.str td, fun s => (Members.get? folded s).bind
      (keptKeys (fun t => t == td) Go.decodeKeySet s)) := by
  have hmap : (fun s => (collect (Go.entry td) (Members.items folded)).lookup s) =
      fun s => (Members.get? folded s).bind (keptKeys (fun t => t == td) Go.decodeKeySet s) := by
    funext s
    exact go_lookup td folded s
  simp only [Impl.parsed, Go.parseBundle, h, ne_eq, not_true, if_false, Except.toOption,
    Option.map_some, hmap]

theorem Go.refuses_iff (d : Json) : Impl.go.refuses d ↔
    ∀ td folded, Go.decodeRaw d ≠ some ⟨some td, some bundleVersion, some folded⟩ := by
  constructor
  · intro h td folded hraw
    obtain ⟨e, he⟩ := h
    simp only [Go.parseBundle, hraw, ne_eq, not_true, if_false] at he
    cases he
  · intro hno
    change ∃ e, Go.parseBundle d = .error e
    unfold Go.parseBundle
    split
    · exact ⟨_, rfl⟩
    · next td version folded hraw =>
      by_cases hv : version = bundleVersion
      · rw [hv] at hraw
        exact absurd hraw (hno td folded)
      · rw [if_pos hv]
        exact ⟨_, rfl⟩
    · exact ⟨_, rfl⟩

theorem Go.conforms_iff (d : Json) : Impl.go.Conforms d ↔ Go.Clear d := by
  constructor
  · intro hc
    constructor
    · intro td es hexp
      by_contra hno
      have hrefuses : Impl.go.refuses d := by
        rw [Go.refuses_iff]
        intro td' folded hraw
        have hparsed := (Go.parsed_eq hraw).symm.trans (hc.accepts td es hexp)
        simp only [Option.some.injEq, Prod.mk.injEq, Json.str.injEq] at hparsed
        rw [hparsed.1] at hraw
        exact hno ⟨folded, hraw⟩
      obtain ⟨e, he⟩ := hrefuses
      have hparsed := hc.accepts td es hexp
      simp [Impl.parsed, he, Except.toOption] at hparsed
    · intro td folded hraw
      have hsome : ∃ td es, Expected d td es := by
        by_contra hno
        exact (Go.refuses_iff d).mp (hc.rejects hno) td folded hraw
      obtain ⟨td', es, hexp⟩ := hsome
      have hparsed := (Go.parsed_eq hraw).symm.trans (hc.accepts td' es hexp)
      simp only [Option.some.injEq, Prod.mk.injEq, Json.str.injEq] at hparsed
      obtain ⟨rfl, hmap⟩ := hparsed
      exact ⟨es, hexp, fun s => congrFun hmap s⟩
  · intro hclear
    constructor
    · intro td es hexp
      obtain ⟨folded, hraw⟩ := hclear.complete td es hexp
      obtain ⟨es', hexp', hmap⟩ := hclear.sound td folded hraw
      rw [Go.parsed_eq hraw, funext hmap, (hexp.unique hexp').2]
    · intro hno
      rw [Go.refuses_iff]
      intro td folded hraw
      obtain ⟨es, hexp, -⟩ := hclear.sound td folded hraw
      exact hno ⟨td, es, hexp⟩

/-- A member is present under its exact name at most, and once. -/
def Go.Exact (name : String) (ms : Members) : Prop :=
  fieldValues name ms = (Members.get? ms name).toList

theorem Go.keptKeys_exact (inDomain : String → Bool) (s : String) (entry : Json)
    (hkeys : ∀ ms, entry = .obj ms → Go.Exact "keys" ms) :
    keptKeys inDomain Go.decodeKeySet s entry = keptKeys inDomain keysMember s entry := by
  have hsame : (Go.decodeKeySet entry).filter (fun keys => !keys.isEmpty) =
      (keysMember entry).filter fun keys => !keys.isEmpty := by
    cases entry with
    | obj ms =>
      rw [Go.decodeKeySet, hkeys ms rfl, keysMember]
      cases Members.get? ms "keys" with
      | none => rfl
      | some v => cases v <;> rfl
    | _ => rfl
  unfold keptKeys
  simp only [hsame]

theorem Go.decodeStringPtr_one (v : Option Json) (td : String) :
    Go.decodeStringPtr v.toList = some (some td) ↔ v = some (.str td) := by
  cases v with
  | none => simp [Go.decodeStringPtr]
  | some v => cases v <;> simp [Go.decodeStringPtr]

theorem Go.decodeIntPtr_one (v : Option Json) (n : ℤ) (hn : -2 ^ 63 ≤ n ∧ n < 2 ^ 63) :
    Go.decodeIntPtr v.toList = some (some n) ↔ v = some (.int n) := by
  cases v with
  | none => simp [Go.decodeIntPtr]
  | some v =>
    cases v with
    | int m =>
      simp only [Go.decodeIntPtr, Option.toList_some, List.foldlM_cons, List.foldlM_nil,
        Option.some.injEq, Json.int.injEq]
      split_ifs with hm
      · simp
      · simp only [Option.bind_eq_bind, Option.bind_none, reduceCtorEq, false_iff]
        rintro rfl
        exact hm hn
    | _ => simp [Go.decodeIntPtr]

theorem Go.decodeMap_one (v : Option Json) (es : Members) :
    Go.decodeMap v.toList = some (some es) ↔ v = some (.obj es) := by
  cases v with
  | none => simp [Go.decodeMap]
  | some v => cases v <;> simp [Go.decodeMap]

theorem Go.decodeRaw_obj (ms : Members) (td : String) (n : ℤ) (es : Members) :
    Go.decodeRaw (.obj ms) = some ⟨some td, some n, some es⟩ ↔
      Go.decodeStringPtr (Go.fieldValues "trust_domain" ms) = some (some td) ∧
        Go.decodeIntPtr (Go.fieldValues "spiffile_version" ms) = some (some n) ∧
        Go.decodeMap (Go.fieldValues "identities" ms) = some (some es) := by
  simp only [Go.decodeRaw]
  split
  · next h1 h2 h3 => simp [h1, h2, h3]
  · next hno =>
    simp only [reduceCtorEq, false_iff]
    intro h
    exact hno _ _ _ h.1 h.2.1 h.2.2

/-- Go reads a document as it is meant when all names in it are exact. -/
theorem Go.clear_of_exact (ms : Members) (htd : Go.Exact "trust_domain" ms)
    (hversion : Go.Exact "spiffile_version" ms) (hidentities : Go.Exact "identities" ms)
    (hkeys : ∀ es s kms, Members.get? ms "identities" = some (.obj es) →
      Members.get? es s = some (.obj kms) → Go.Exact "keys" kms) : Go.Clear (.obj ms) := by
  have hraw : ∀ td es, Go.decodeRaw (.obj ms) = some ⟨some td, some bundleVersion, some es⟩ ↔
      Expected (.obj ms) td es := by
    intro td es
    rw [Go.decodeRaw_obj, htd, hversion, hidentities, Go.decodeStringPtr_one,
      Go.decodeIntPtr_one _ _ (by decide), Go.decodeMap_one]
    constructor
    · intro h
      exact ⟨ms, rfl, h⟩
    · intro h
      obtain ⟨ms', hms, h⟩ := h
      cases hms
      exact h
  constructor
  · intro td es hexp
    exact ⟨es, (hraw td es).mpr hexp⟩
  · intro td folded hfolded
    have hexp := (hraw td folded).mp hfolded
    refine ⟨folded, hexp, ?_⟩
    intro s
    obtain ⟨ms', hms, -, -, hes⟩ := hexp
    cases hms
    unfold expectedKeys
    cases hentry : Members.get? folded s with
    | none => rfl
    | some entry =>
      rw [Option.bind_some, Option.bind_some]
      exact Go.keptKeys_exact _ s entry fun kms hkms => hkeys folded s kms hes (hkms ▸ hentry)

/-! ### Together -/

/-- No member of the document has a type or a name that one of the three
languages blurs. -/
structure DocumentClear (d : Json) : Prop where
  py : Py.Clear d
  ts : Ts.Clear d
  go : Go.Clear d

end Spiffile
