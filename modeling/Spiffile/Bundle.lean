import Mathlib.Data.List.AList
import Spiffile.Errors

/-!
# Trust bundles

`bundle.py`, `bundle.ts` and `bundle.go`: the three parsers, the documents the
three serialisers write, and `keys_for`. The bytes of a file are not modelled:
a file holds a JSON value or no JSON. Go decodes into structs, which matches
member names up to letter case and fails on a member of another type.
-/

namespace Spiffile

def bundleVersion : ℤ := 1

/-- SPIFFE ID to JWKs. -/
abbrev Identities := AList fun _ : String => List Json

structure Bundle (TrustDomain : Type) where
  trustDomain : TrustDomain
  identities : Identities

/-- Why an entry is left out, with a warning. -/
inductive Skip where
  | invalidId (e : InvalidSpiffeId)
  | foreignDomain
  | noKeys
  deriving DecidableEq

def Skip.text : Skip → String
  | .invalidId e => e.fault.text
  | .foreignDomain => "not in trust domain"
  | .noKeys => "no keys"

/-- The body of the loop over `identities`: an entry is skipped, or kept under
its printed ID. -/
def entryWith (parse : String → Except InvalidSpiffeId SpiffeId) (inDomain : String → Bool)
    (keysOf : Json → Option (List Json)) (rawId : String) (jwks : Json) :
    Except Skip (String × List Json) :=
  match parse rawId with
  | .error e => .error (.invalidId e)
  | .ok spiffeId =>
    if ¬ inDomain spiffeId.trustDomain then .error .foreignDomain
    else
      match keysOf jwks with
      | some keys => if keys.isEmpty then .error .noKeys else .ok (spiffeId.toString, keys)
      | none => .error .noKeys

/-- The loop over the entries. -/
def collect (entry : String → Json → Except Skip (String × List Json)) (entries : Members) :
    Identities :=
  entries.foldl (fun identities m =>
    match entry m.1 m.2 with
    | .ok (id, keys) => identities.insert id keys
    | .error _ => identities) ∅

/-- The member `keys` where it is an array; of an array value the property is
a function, which is none either. -/
def keysMember : Json → Option (List Json)
  | .obj ms =>
    match Members.get? ms "keys" with
    | some (.arr keys) => some keys
    | _ => none
  | _ => none

/-- The document `to_dict`, `toDocument` and `MarshalBundle` write. -/
def document (trustDomain : Json) (identities : Identities) : Json :=
  .obj [("trust_domain", trustDomain), ("spiffile_version", .int bundleVersion),
    ("identities", .obj (identities.entries.map fun e => (e.1, .obj [("keys", .arr e.2)])))]

/-- What stands at the path of a bundle. -/
inductive BundleFile where
  | missing
  | notJson
  | doc (d : Json)

namespace Py

def entry (trustDomain : Json) : String → Json → Except Skip (String × List Json) :=
  entryWith parse (fun td => Json.pyEq (.str td) trustDomain) keysMember

/-- `Bundle.from_dict`: subscripting anything but a dict by a string is the
same error as a missing member, and only a dict has `items`. -/
def fromDict (doc : Json) : Except Exn (Bundle Json) :=
  match doc with
  | .obj ms =>
    match Members.get? ms "trust_domain", Members.get? ms "spiffile_version",
      Members.get? ms "identities" with
    | some trustDomain, some version, some identitiesDoc =>
      if ¬ Json.pyEq version (.int bundleVersion) then
        .error (.invalidBundle .unsupportedVersion)
      else
        match identitiesDoc with
        | .obj es => .ok ⟨trustDomain, collect (entry trustDomain) (Members.items es)⟩
        | _ => .error .attributeError
    | _, _, _ => .error (.invalidBundle .missingMember)
  | _ => .error (.invalidBundle .missingMember)

def toDict (b : Bundle Json) : Json := document b.trustDomain b.identities

def keysFor (b : Bundle Json) (spiffeId : String) : Except Exn (List Json) :=
  match b.identities.lookup spiffeId with
  | some keys => .ok keys
  | none => .error (.unknownIdentity spiffeId)

/-- `FileBundleSource.get` of a fresh source. -/
def readBundle : BundleFile → Except Exn (Bundle Json)
  | .missing => .error .osError
  | .notJson => .error (.invalidBundle .unreadable)
  | .doc d => fromDict d

end Py

namespace Ts

def entry (trustDomain : String) : String → Json → Except Skip (String × List Json) :=
  entryWith parse (fun td => td == trustDomain) keysMember

/-- `Object.entries`; the names of an array's entries are its indices. -/
def objectEntries : Json → Members
  | .obj ms => Members.items ms
  | .arr xs => xs.zipIdx.map fun x => (toString x.2, x.1)
  | _ => []

def isObject : Json → Bool
  | .obj _ => true
  | .arr _ => true
  | _ => false

/-- The checks of `Bundle.fromDocument` once the document is an object. -/
def fromMembers (trustDomain version identities : Option Json) : Except Exn (Bundle String) :=
  match trustDomain, version, identities with
  | some (.str trustDomain), some version, some identities =>
    if ¬ isObject identities then .error (.invalidBundle .missingMember)
    else if ¬ Json.jsStrictEq (some version) (some (.int bundleVersion)) then
      -- the message prints the version
      if Json.jsPrints version then .error (.invalidBundle .unsupportedVersion)
      else .error .typeError
    else .ok ⟨trustDomain, collect (entry trustDomain) (objectEntries identities)⟩
  | _, _, _ => .error (.invalidBundle .missingMember)

def fromDocument : Json → Except Exn (Bundle String)
  | .obj ms =>
    fromMembers (Members.get? ms "trust_domain") (Members.get? ms "spiffile_version")
      (Members.get? ms "identities")
  | .arr _ => fromMembers none none none
  | _ => .error (.invalidBundle .notObject)

def toDocument (b : Bundle String) : Json := document (.str b.trustDomain) b.identities

def keysFor (b : Bundle String) (spiffeId : String) : Except Exn (List Json) :=
  match b.identities.lookup spiffeId with
  | some keys => .ok keys
  | none => .error (.unknownIdentity spiffeId)

/-- `FileBundleSource.get` of a fresh source. -/
def sourceGet : BundleFile → Except Exn (Bundle String)
  | .missing => .error .systemError
  | .notJson => .error (.invalidBundle .unreadable)
  | .doc d => fromDocument d

/-- `readBundle` of `provision.ts`, which has no source of its own. -/
def readBundle : BundleFile → Except Exn (Bundle String)
  | .missing => .error .systemError
  | .notJson => .error .syntaxError
  | .doc d => fromDocument d

end Ts

namespace Go

/-- `foldRune` of `encoding/json`, as far as an ASCII name can tell: two
letters outside ASCII fold into it. -/
def foldRune (c : Char) : Char :=
  if c.toNat = 383 then 'S' else if c.toNat = 8490 then 'K' else c.toUpper

def foldName (name : String) : List Char := name.toList.map foldRune

/-- The values a struct field gets, one after the other. -/
def fieldValues (name : String) (ms : Members) : List Json :=
  (ms.filter fun m => foldName m.1 == foldName name).map Prod.snd

/-- A field of type `string`: `null` leaves it, another type fails. -/
def decodeString (vs : List Json) : Option String :=
  vs.foldlM (fun s v =>
    match v with
    | .null => some s
    | .str t => some t
    | _ => none) ""

/-- A field of type `*string`. -/
def decodeStringPtr (vs : List Json) : Option (Option String) :=
  vs.foldlM (fun _ v =>
    match v with
    | .null => some none
    | .str t => some (some t)
    | _ => none) none

/-- A field of type `*int`: an integer literal that fits. -/
def decodeIntPtr (vs : List Json) : Option (Option ℤ) :=
  vs.foldlM (fun _ v =>
    match v with
    | .null => some none
    | .int n => if -2 ^ 63 ≤ n ∧ n < 2 ^ 63 then some (some n) else none
    | _ => none) none

/-- A field of type `map[string]json.RawMessage`: a second object is added to
the map of the first. -/
def decodeMap (vs : List Json) : Option (Option Members) :=
  vs.foldlM (fun m v =>
    match v with
    | .null => some none
    | .obj es => some (some (m.getD [] ++ es))
    | _ => none) none

/-- A field of type `[]json.RawMessage`. -/
def decodeRawList (vs : List Json) : Option (List Json) :=
  vs.foldlM (fun _ v =>
    match v with
    | .null => some []
    | .arr xs => some xs
    | _ => none) []

/-- `json.Unmarshal` into a `KeySet`: its keys. -/
def decodeKeySet : Json → Option (List Json)
  | .null => some []
  | .obj ms => decodeRawList (fieldValues "keys" ms)
  | _ => none

/-- The struct `ParseBundle` decodes into. -/
structure Raw where
  trustDomain : Option String
  spiffileVersion : Option ℤ
  identities : Option Members

def decodeRaw : Json → Option Raw
  | .null => some ⟨none, none, none⟩
  | .obj ms =>
    match decodeStringPtr (fieldValues "trust_domain" ms),
      decodeIntPtr (fieldValues "spiffile_version" ms),
      decodeMap (fieldValues "identities" ms) with
    | some trustDomain, some version, some identities => some ⟨trustDomain, version, identities⟩
    | _, _, _ => none
  | _ => none

def entry (trustDomain : String) : String → Json → Except Skip (String × List Json) :=
  entryWith parseSpiffeID (fun td => td == trustDomain) decodeKeySet

/-- One warning for each skipped entry; Go goes through the map in any order. -/
def warnings (trustDomain : String) (es : Members) : List (String × Skip) :=
  es.filterMap fun m =>
    match entry trustDomain m.1 m.2 with
    | .ok _ => none
    | .error skip => some (m.1, skip)

def parseBundle (doc : Json) : Except Err (Bundle String × List (String × Skip)) :=
  match decodeRaw doc with
  | none => .error .notJson
  | some ⟨some trustDomain, some version, some identities⟩ =>
    if version ≠ bundleVersion then .error (.unsupportedVersion version)
    else
      .ok (⟨trustDomain, collect (entry trustDomain) (Members.items identities)⟩,
        warnings trustDomain (Members.items identities))
  | some _ => .error .missingMember

def marshalBundle (b : Bundle String) : Json := document (.str b.trustDomain) b.identities

def keysFor (b : Bundle String) (spiffeId : String) : Except Err (List Json) :=
  match b.identities.lookup spiffeId with
  | some keys => .ok keys
  | none => .error (.unknownIdentity spiffeId)

/-- `Get` of a fresh source. -/
def readBundle : BundleFile → Except Err (Bundle String)
  | .missing => .error .os
  | .notJson => .error .notJson
  | .doc d => (parseBundle d).map Prod.fst

end Go

/-! ### The entries of a parsed bundle -/

/-- An entry is kept under the text it has in the document, because printing
inverts parsing. -/
theorem entryWith_eq_ok_iff (parse : String → Except InvalidSpiffeId SpiffeId)
    (inDomain : String → Bool) (keysOf : Json → Option (List Json))
    (hparse : ∀ s, parse s = Go.parseSpiffeID s) (rawId : String) (jwks : Json) (id : String)
    (keys : List Json) :
    entryWith parse inDomain keysOf rawId jwks = .ok (id, keys) ↔
      id = rawId ∧ keysOf jwks = some keys ∧ keys ≠ [] ∧
        ∃ spiffeId, Go.parseSpiffeID rawId = .ok spiffeId ∧ inDomain spiffeId.trustDomain = true := by
  unfold entryWith
  rw [hparse]
  cases hp : Go.parseSpiffeID rawId with
  | error e => simp
  | ok spiffeId =>
    have hs := toString_of_parse hp
    cases hd : inDomain spiffeId.trustDomain with
    | false => simp [hd]
    | true =>
      cases hk : keysOf jwks with
      | none => simp [hd]
      | some ks =>
        cases ks with
        | nil => simp [hd]
        | cons k ks =>
          simp only [hd, hs, not_true, if_false, List.isEmpty_cons, Bool.false_eq_true]
          constructor
          · intro h
            cases h
            exact ⟨rfl, rfl, by simp, spiffeId, rfl, hd⟩
          · rintro ⟨rfl, h, -, -⟩
            rw [Option.some_inj.mp h]

theorem lookup_foldl_collect (entry : String → Json → Except Skip (String × List Json))
    (hraw : ∀ rawId jwks id keys, entry rawId jwks = .ok (id, keys) → id = rawId)
    (entries : Members) (hn : (entries.map Prod.fst).Nodup) (acc : Identities) (s : String) :
    (entries.foldl (fun identities m =>
      match entry m.1 m.2 with
      | .ok (id, keys) => identities.insert id keys
      | .error _ => identities) acc).lookup s =
      (match Members.get? entries s with
        | none => acc.lookup s
        | some jwks =>
          match entry s jwks with
          | .ok (_, keys) => some keys
          | .error _ => acc.lookup s) := by
  induction entries generalizing acc with
  | nil => rfl
  | cons m entries ih =>
    obtain ⟨rawId, jwks⟩ := m
    rw [List.map_cons, List.nodup_cons] at hn
    rw [List.foldl_cons, ih hn.2]
    have hfresh := (Members.get?_eq_none_iff entries rawId).mpr hn.1
    by_cases hs : rawId = s
    · subst hs
      simp only [hfresh, Members.get?, if_true]
      cases he : entry rawId jwks with
      | error e => rfl
      | ok kept =>
        obtain ⟨id, keys⟩ := kept
        rw [hraw _ _ _ _ he]
        simp
    · have hother : (match entry rawId jwks with
          | .ok (id, keys) => acc.insert id keys
          | .error _ => acc).lookup s = acc.lookup s := by
        cases he : entry rawId jwks with
        | error e => rfl
        | ok kept =>
          obtain ⟨id, keys⟩ := kept
          rw [hraw _ _ _ _ he]
          exact AList.lookup_insert_ne fun h => hs h.symm
      simp only [Members.get?, hs, if_false, hother]
      cases Members.get? entries s <;> rfl

/-- Looking an ID up in the collected map looks at its own entry and no other. -/
theorem lookup_collect (entry : String → Json → Except Skip (String × List Json))
    (hraw : ∀ rawId jwks id keys, entry rawId jwks = .ok (id, keys) → id = rawId)
    (entries : Members) (hn : (entries.map Prod.fst).Nodup) (s : String) :
    (collect entry entries).lookup s =
      (Members.get? entries s).bind fun jwks => (entry s jwks).toOption.map Prod.snd := by
  rw [collect, lookup_foldl_collect entry hraw entries hn]
  cases Members.get? entries s with
  | none => exact AList.lookup_empty s
  | some jwks =>
    cases he : entry s jwks with
    | error e => simp [Except.toOption, he]
    | ok kept => simp [Except.toOption, he]

/-- What one entry value binds `s` to. -/
def keptKeys (inDomain : String → Bool) (keysOf : Json → Option (List Json)) (s : String)
    (jwks : Json) : Option (List Json) :=
  match Go.parseSpiffeID s with
  | .error _ => none
  | .ok spiffeId =>
    if inDomain spiffeId.trustDomain then (keysOf jwks).filter fun keys => !keys.isEmpty else none

theorem entryWith_toOption (parse : String → Except InvalidSpiffeId SpiffeId)
    (inDomain : String → Bool) (keysOf : Json → Option (List Json))
    (hparse : ∀ s, parse s = Go.parseSpiffeID s) (s : String) (jwks : Json) :
    (entryWith parse inDomain keysOf s jwks).toOption.map Prod.snd =
      keptKeys inDomain keysOf s jwks := by
  unfold entryWith keptKeys
  rw [hparse]
  cases Go.parseSpiffeID s with
  | error e => rfl
  | ok spiffeId =>
    cases hd : inDomain spiffeId.trustDomain with
    | false => simp [hd, Except.toOption]
    | true =>
      cases hk : keysOf jwks with
      | none => simp [hd, Except.toOption]
      | some keys => cases keys <;> simp [hd, Except.toOption, Option.filter]

theorem lookup_collect_items (parse : String → Except InvalidSpiffeId SpiffeId)
    (inDomain : String → Bool) (keysOf : Json → Option (List Json))
    (hparse : ∀ s, parse s = Go.parseSpiffeID s) (es : Members) (s : String) :
    (collect (entryWith parse inDomain keysOf) (Members.items es)).lookup s =
      (Members.get? es s).bind (keptKeys inDomain keysOf s) := by
  rw [lookup_collect _ _ _ (Members.items_nodup es), Members.get?_items]
  · cases Members.get? es s with
    | none => rfl
    | some jwks => exact entryWith_toOption parse inDomain keysOf hparse s jwks
  · intro rawId jwks id keys h
    exact ((entryWith_eq_ok_iff parse inDomain keysOf hparse rawId jwks id keys).mp h).1

theorem py_lookup (trustDomain : Json) (es : Members) (s : String) :
    (collect (Py.entry trustDomain) (Members.items es)).lookup s =
      (Members.get? es s).bind
        (keptKeys (fun td => Json.pyEq (.str td) trustDomain) keysMember s) :=
  lookup_collect_items _ _ _ py_parse_eq es s

theorem ts_lookup (trustDomain : String) (es : Members) (s : String) :
    (collect (Ts.entry trustDomain) (Members.items es)).lookup s =
      (Members.get? es s).bind (keptKeys (fun td => td == trustDomain) keysMember s) :=
  lookup_collect_items _ _ _ ts_parse_eq es s

theorem go_lookup (trustDomain : String) (es : Members) (s : String) :
    (collect (Go.entry trustDomain) (Members.items es)).lookup s =
      (Members.get? es s).bind (keptKeys (fun td => td == trustDomain) Go.decodeKeySet s) :=
  lookup_collect_items _ _ _ (fun _ => rfl) es s

theorem keysOf_of_keptKeys {inDomain : String → Bool} {keysOf : Json → Option (List Json)}
    {s : String} {jwks : Json} {keys : List Json}
    (h : keptKeys inDomain keysOf s jwks = some keys) : keysOf jwks = some keys ∧ keys ≠ [] := by
  unfold keptKeys at h
  cases hp : Go.parseSpiffeID s with
  | error e => simp [hp] at h
  | ok spiffeId =>
    simp only [hp] at h
    split_ifs at h
    obtain ⟨hk, hne⟩ := Option.filter_eq_some_iff.mp h
    exact ⟨hk, by simpa using hne⟩

/-! ### What a document binds -/

/-- The document lists `jwks` under `s`. -/
def Binds (d : Json) (s : String) (jwks : List Json) : Prop :=
  ∃ ms es entry, d = .obj ms ∧ Members.get? ms "identities" = some (.obj es) ∧
    Members.get? es s = some entry ∧ keysMember entry = some jwks

/-- The same for Go, which folds the case of `identities` and `keys`. -/
def Go.Binds (d : Json) (s : String) (jwks : List Json) : Prop :=
  ∃ ms es entry, d = .obj ms ∧ decodeMap (fieldValues "identities" ms) = some (some es) ∧
    Members.get? es s = some entry ∧ decodeKeySet entry = some jwks

theorem py_binds {d : Json} {b : Bundle Json} {s : String} {jwks : List Json}
    (hb : Py.fromDict d = .ok b) (hl : b.identities.lookup s = some jwks) : Binds d s jwks := by
  unfold Py.fromDict at hb
  split at hb
  · next ms =>
    split at hb
    · next identitiesDoc h1 h2 h3 =>
      split_ifs at hb
      split at hb
      · next es =>
        cases hb
        rw [py_lookup] at hl
        obtain ⟨entry, he, hk⟩ := Option.bind_eq_some_iff.mp hl
        exact ⟨ms, es, entry, rfl, h3, he, (keysOf_of_keptKeys hk).1⟩
      · cases hb
    · cases hb
  · cases hb

/-- No index of an array is a SPIFFE ID. -/
theorem ts_collect_array (trustDomain : String) (xs : List Json) :
    collect (Ts.entry trustDomain) (Ts.objectEntries (.arr xs)) = ∅ := by
  have hskip : ∀ (m : String × Json), m ∈ Ts.objectEntries (.arr xs) →
      ∃ skip, Ts.entry trustDomain m.1 m.2 = .error skip := by
    intro m hm
    obtain ⟨⟨x, i⟩, -, rfl⟩ := List.mem_map.mp hm
    have hpre : ¬ scheme.toList.isPrefixOf (toString i).toList := by
      intro h
      have hs : 's' ∈ (toString i).toList :=
        (List.isPrefixOf_iff_prefix.mp h).subset (by decide)
      rw [Nat.toString_eq_repr, Nat.repr_eq_ofList_toDigits, String.toList_ofList] at hs
      exact absurd (Nat.isDigit_of_mem_toDigits (by decide) (by decide) hs) (by decide)
    have hparse : Ts.parse (toString i) = .error ⟨.missingScheme, toString i⟩ := if_pos hpre
    exact ⟨.invalidId ⟨.missingScheme, toString i⟩, by simp only [Ts.entry, entryWith, hparse]⟩
  have hfold : ∀ (entries : Members) (acc : Identities),
      (∀ m ∈ entries, ∃ skip, Ts.entry trustDomain m.1 m.2 = .error skip) →
      entries.foldl (fun identities m =>
        match Ts.entry trustDomain m.1 m.2 with
        | .ok (id, keys) => identities.insert id keys
        | .error _ => identities) acc = acc := by
    intro entries
    induction entries with
    | nil => exact fun _ _ => rfl
    | cons m entries ih =>
      intro acc h
      obtain ⟨skip, hm⟩ := h m List.mem_cons_self
      rw [List.foldl_cons, hm]
      exact ih acc fun m' hm' => h m' (List.mem_cons_of_mem _ hm')
  exact hfold _ ∅ hskip

theorem ts_binds {d : Json} {b : Bundle String} {s : String} {jwks : List Json}
    (hb : Ts.fromDocument d = .ok b) (hl : b.identities.lookup s = some jwks) :
    Binds d s jwks := by
  unfold Ts.fromDocument at hb
  split at hb
  · next ms =>
    unfold Ts.fromMembers at hb
    split at hb
    · next trustDomain version identities h1 h2 h3 =>
      split_ifs at hb with hobj
      cases identities with
      | obj es =>
        cases hb
        change (collect _ (Members.items es)).lookup s = _ at hl
        rw [ts_lookup] at hl
        obtain ⟨entry, he, hk⟩ := Option.bind_eq_some_iff.mp hl
        exact ⟨ms, es, entry, rfl, h3, he, (keysOf_of_keptKeys hk).1⟩
      | arr xs =>
        cases hb
        dsimp only at hl
        rw [ts_collect_array] at hl
        simp at hl
      | null => simp [Ts.isObject] at hobj
      | bool b => simp [Ts.isObject] at hobj
      | int n => simp [Ts.isObject] at hobj
      | dec q => simp [Ts.isObject] at hobj
      | str t => simp [Ts.isObject] at hobj
    · cases hb
  · simp [Ts.fromMembers] at hb
  · cases hb

theorem go_binds {d : Json} {b : Bundle String} {ws : List (String × Skip)} {s : String}
    {jwks : List Json} (hb : Go.parseBundle d = .ok (b, ws))
    (hl : b.identities.lookup s = some jwks) : Go.Binds d s jwks := by
  unfold Go.parseBundle at hb
  split at hb
  · cases hb
  · next trustDomain version identities hraw =>
    split_ifs at hb
    cases hb
    rw [go_lookup] at hl
    obtain ⟨entry, he, hk⟩ := Option.bind_eq_some_iff.mp hl
    unfold Go.decodeRaw at hraw
    split at hraw
    · cases hraw
    · next ms =>
      split at hraw
      · next h1 h2 h3 =>
        cases hraw
        exact ⟨ms, identities, entry, rfl, h3, he, (keysOf_of_keptKeys hk).1⟩
      · cases hraw
    · cases hraw
  · cases hb

/-! ### Reading back what was written -/

/-- `s` is a SPIFFE ID of the trust domain. -/
def inTrustDomain (trustDomain s : String) : Bool :=
  match Go.parseSpiffeID s with
  | .ok spiffeId => spiffeId.trustDomain == trustDomain
  | .error _ => false

/-- The keys a parser finds under `s` in a written document: those of a foreign
or malformed ID, and an empty list, are skipped. -/
def readBack (trustDomain : String) (identities : Identities) (s : String) :
    Option (List Json) :=
  if inTrustDomain trustDomain s then (identities.lookup s).filter fun keys => !keys.isEmpty
  else none

theorem get?_map_entries (identities : Identities) (f : List Json → Json) (s : String) :
    Members.get? (identities.entries.map fun e => (e.1, f e.2)) s =
      (identities.lookup s).map f := by
  obtain ⟨entries, hn⟩ := identities
  simp only [AList.lookup]
  induction entries with
  | nil => rfl
  | cons e entries ih =>
    obtain ⟨id, keys⟩ := e
    rw [List.nodupKeys_cons] at hn
    simp only [List.map_cons, Members.get?, ih hn.2]
    by_cases hs : id = s
    · subst hs
      rw [List.dlookup_cons_eq, List.dlookup_eq_none.mpr hn.1]
      simp
    · rw [List.dlookup_cons_ne _ _ fun h => hs h.symm]
      cases List.dlookup s entries <;> simp [hs]

theorem keptKeys_written (inDomain : String → Bool) (keysOf : Json → Option (List Json))
    (trustDomain : String) (hd : ∀ td, inDomain td = (td == trustDomain))
    (hk : ∀ keys, keysOf (.obj [("keys", .arr keys)]) = some keys) (identities : Identities)
    (s : String) :
    (Members.get? (identities.entries.map fun e => (e.1, .obj [("keys", .arr e.2)])) s).bind
      (keptKeys inDomain keysOf s) = readBack trustDomain identities s := by
  rw [get?_map_entries identities fun keys => .obj [("keys", .arr keys)]]
  unfold readBack inTrustDomain keptKeys
  cases Go.parseSpiffeID s with
  | error e => cases identities.lookup s <;> simp
  | ok spiffeId =>
    cases identities.lookup s with
    | none => simp
    | some keys => simp [hd, hk]

theorem py_fromDict_document (trustDomain : String) (identities : Identities) :
    ∃ b, Py.fromDict (document (.str trustDomain) identities) = .ok b ∧
      b.trustDomain = .str trustDomain ∧
      ∀ s, b.identities.lookup s = readBack trustDomain identities s := by
  refine ⟨_, rfl, rfl, fun s => ?_⟩
  dsimp only
  rw [py_lookup]
  exact keptKeys_written _ _ trustDomain (fun _ => rfl) (fun _ => rfl) identities s

theorem ts_fromDocument_document (trustDomain : String) (identities : Identities) :
    ∃ b, Ts.fromDocument (document (.str trustDomain) identities) = .ok b ∧
      b.trustDomain = trustDomain ∧
      ∀ s, b.identities.lookup s = readBack trustDomain identities s := by
  refine ⟨_, rfl, rfl, fun s => ?_⟩
  change (collect _ (Members.items _)).lookup s = _
  rw [ts_lookup]
  exact keptKeys_written _ _ trustDomain (fun _ => rfl) (fun _ => rfl) identities s

theorem go_decodeRaw_document (trustDomain : String) (identities : Identities) :
    Go.decodeRaw (document (.str trustDomain) identities) =
      some ⟨some trustDomain, some bundleVersion,
        some (identities.entries.map fun e => (e.1, .obj [("keys", .arr e.2)]))⟩ := by
  have h1 : Go.foldName "spiffile_version" ≠ Go.foldName "trust_domain" := by decide
  have h2 : Go.foldName "identities" ≠ Go.foldName "trust_domain" := by decide
  have h3 : Go.foldName "identities" ≠ Go.foldName "spiffile_version" := by decide
  simp [Go.decodeRaw, document, Go.fieldValues, h1, h2, h3, h1.symm, h2.symm, h3.symm,
    Go.decodeStringPtr, Go.decodeIntPtr, Go.decodeMap, bundleVersion]

theorem go_parseBundle_document (trustDomain : String) (identities : Identities) :
    ∃ b ws, Go.parseBundle (document (.str trustDomain) identities) = .ok (b, ws) ∧
      b.trustDomain = trustDomain ∧
      ∀ s, b.identities.lookup s = readBack trustDomain identities s := by
  have hraw := go_decodeRaw_document trustDomain identities
  refine ⟨_, _, by rw [Go.parseBundle, hraw]; rfl, rfl, fun s => ?_⟩
  dsimp only
  rw [go_lookup]
  have hkeys : ∀ keys, Go.decodeKeySet (.obj [("keys", .arr keys)]) = some keys := fun keys => by
    simp [Go.decodeKeySet, Go.fieldValues, Go.decodeRawList]
  exact keptKeys_written _ _ trustDomain (fun _ => rfl) hkeys identities s

/-- What a written document lists, unfiltered. -/
theorem binds_document {trustDomain s : String} {identities : Identities} {jwks : List Json}
    (h : Binds (document (.str trustDomain) identities) s jwks) :
    identities.lookup s = some jwks := by
  obtain ⟨ms, es, entry, hms, hes, hentry, hkeys⟩ := h
  cases hms
  have hes' : es = identities.entries.map fun e => (e.1, Json.obj [("keys", .arr e.2)]) := by
    simpa [Members.get?] using hes.symm
  rw [hes', get?_map_entries identities fun keys => .obj [("keys", .arr keys)]] at hentry
  obtain ⟨keys, hl, rfl⟩ := Option.map_eq_some_iff.mp hentry
  cases hkeys
  exact hl

theorem go_binds_document {trustDomain s : String} {identities : Identities} {jwks : List Json}
    (h : Go.Binds (document (.str trustDomain) identities) s jwks) :
    identities.lookup s = some jwks := by
  obtain ⟨ms, es, entry, hms, hes, hentry, hkeys⟩ := h
  cases hms
  have h1 : Go.foldName "trust_domain" ≠ Go.foldName "identities" := by decide
  have h2 : Go.foldName "spiffile_version" ≠ Go.foldName "identities" := by decide
  have hes' : es = identities.entries.map fun e => (e.1, Json.obj [("keys", .arr e.2)]) := by
    simpa [Go.fieldValues, Go.decodeMap, h1, h2] using hes.symm
  rw [hes', get?_map_entries identities fun keys => .obj [("keys", .arr keys)]] at hentry
  obtain ⟨keys, hl, rfl⟩ := Option.map_eq_some_iff.mp hentry
  have hraw : Go.decodeKeySet (.obj [("keys", .arr keys)]) = some keys := by
    simp [Go.decodeKeySet, Go.fieldValues, Go.decodeRawList]
  rw [hraw] at hkeys
  cases hkeys
  exact hl

end Spiffile
