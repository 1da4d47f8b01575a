import Spiffile.Provision

/-!
# The three kits obey one set of laws

What the proofs about provisioning use of a language: it joins plain names,
reads back the documents that provisioning writes, accepts the IDs the others
accept, derives the same JWK and carries derived JWKs over as they are.
-/

namespace Spiffile

open FileTree

structure Kit.Lawful {ε τ κ : Type} (kit : Kit ε τ κ) (sha256 : Hash) : Prop where
  join_plain : ∀ base parts, (∀ name ∈ base, Volume.Plain name) →
    (∀ part ∈ parts, ∀ name ∈ splitSlash part, Volume.Plain name) →
    kit.join base parts = base ++ parts.flatMap splitSlash
  parse_ok : ∀ answer b, kit.parseBundle (kit.file answer) = .ok b → ∃ d, answer = .ok (.json d)
  parse_document : ∀ td ids, ∃ b,
    kit.parseBundle (kit.file (.ok (.json (document (.str td) ids)))) = .ok b ∧
      kit.text b.trustDomain = td ∧
      (∀ ids', kit.serialise ⟨b.trustDomain, ids'⟩ = document (.str td) ids') ∧
      ∀ s, b.identities.lookup s = readBack td ids s
  serialise_init : ∀ td ids, kit.serialise ⟨kit.trustDomain td, ids⟩ = document (.str td) ids
  parseId_ok : ∀ s id, kit.parseId s = .ok id ↔ Go.parseSpiffeID s = .ok id
  publicJwk_ok : ∀ p : Point, ∃ k, kit.publicJwk p = .ok k ∧
    kit.jwkJson k = .obj (p.jwk sha256) ∧
    ∀ qs : List Point, kit.keepOthers k (qs.map fun q => .obj (q.jwk sha256)) =
      .ok ((qs.filter fun q => q.kid sha256 ≠ p.kid sha256).map fun q => .obj (q.jwk sha256))

theorem mapError_eq_ok {ε ε' α : Type} {f : ε → ε'} {r : Except ε α} {a : α} :
    r.mapError f = .ok a ↔ r = .ok a := by
  cases r <;> simp [Except.mapError]

theorem get?_jwk_kid (sha256 : Hash) (p : Point) :
    Members.get? (p.jwk sha256) "kid" = some (.str (p.kid sha256)) := by
  simp [Point.jwk, jwkMembers, Members.get?]

theorem asDicts_map_obj (ms : List Members) : Py.asDicts (ms.map .obj) = some ms := by
  induction ms with
  | nil => rfl
  | cons m ms ih => simp [Py.asDicts, ih]

/-- A parser that accepts documents only was given one. -/
theorem json_of_parse_file {ε β : Type} {parse : BundleFile → Except ε β}
    (hparse : ∀ f b, parse f = .ok b → ∃ d, f = .doc d) {atDir : BundleFile}
    (hdir : ∀ d, atDir ≠ .doc d) {answer : Except Errno Content} {b : β}
    (h : parse (bundleFileWith atDir answer) = .ok b) : ∃ d, answer = .ok (.json d) := by
  obtain ⟨d, hd⟩ := hparse _ _ h
  unfold bundleFileWith at hd
  split at hd
  · exact ⟨_, rfl⟩
  · cases hd
  · exact absurd hd (hdir d)
  · cases hd

namespace Py

theorem readBundle_doc (f : BundleFile) (b : Bundle Json) (h : readBundle f = .ok b) : ∃ d, f = .doc d := by
  cases f with
  | doc d => exact ⟨d, rfl⟩
  | missing => cases h
  | notJson => cases h

theorem keepOthers_jwks (sha256 : Hash) (p : Point) (qs : List Point) :
    keepOthers (p.jwk sha256) (qs.map fun q => .obj (q.jwk sha256)) =
      .ok ((qs.filter fun q => q.kid sha256 ≠ p.kid sha256).map fun q => .obj (q.jwk sha256)) := by
  have hdicts : asDicts (qs.map fun q => .obj (q.jwk sha256)) = some (qs.map (Point.jwk sha256)) := by
    rw [← asDicts_map_obj, List.map_map]
    rfl
  have hkeep : ∀ q : Point, (!Json.pyGetEq (Members.get? (q.jwk sha256) "kid")
      (Members.get? (p.jwk sha256) "kid")) = decide (q.kid sha256 ≠ p.kid sha256) := by
    intro q
    rw [get?_jwk_kid, get?_jwk_kid]
    simp [Json.pyGetEq, beq_eq_decide]
  simp only [keepOthers, hdicts, List.filter_map, List.map_map]
  congr 2
  exact List.filter_congr fun q _ => hkeep q

theorem kit_lawful (rt : Runtime) : (kit rt).Lawful rt.sha256 where
  join_plain base parts _ hparts := py_join_plain hparts
  parse_ok answer b h := json_of_parse_file readBundle_doc (by simp) h
  parse_document td ids := by
    obtain ⟨b, hb, htd, hl⟩ := py_fromDict_document td ids
    exact ⟨b, hb, by rw [htd]; rfl, fun ids' => by rw [htd]; rfl, hl⟩
  serialise_init _ _ := rfl
  parseId_ok s id := by
    change (parse s).mapError _ = _ ↔ _
    rw [mapError_eq_ok, py_parse_eq]
  publicJwk_ok p := by
    refine ⟨p.jwk rt.sha256, ?_, rfl, keepOthers_jwks rt.sha256 p⟩
    simp only [kit, py_publicJwk]

end Py

namespace Ts

theorem readBundle_doc (f : BundleFile) (b : Bundle String) (h : readBundle f = .ok b) : ∃ d, f = .doc d := by
  cases f with
  | doc d => exact ⟨d, rfl⟩
  | missing => cases h
  | notJson => cases h

theorem keepOthers_jwks (sha256 : Hash) (p : Point) (qs : List Point) :
    keepOthers (p.jwk sha256) (qs.map fun q => .obj (q.jwk sha256)) =
      .ok ((qs.filter fun q => q.kid sha256 ≠ p.kid sha256).map fun q => .obj (q.jwk sha256)) := by
  have hkids : (qs.map fun q => Json.obj (q.jwk sha256)).mapM
      (fun jwk => (Json.jsProp? jwk "kid").map fun kid => (jwk, kid)) =
        some (qs.map fun q => (Json.obj (q.jwk sha256), some (.str (q.kid sha256)))) := by
    induction qs with
    | nil => rfl
    | cons q qs ih =>
      have hq : Json.jsProp? (.obj (q.jwk sha256)) "kid" = some (some (.str (q.kid sha256))) :=
        congrArg some (get?_jwk_kid sha256 q)
      simp only [List.map_cons, List.mapM_cons, hq, Option.map_some, ih]
      rfl
  have hkeep : ∀ q : Point, (!Json.jsStrictEq (some (.str (q.kid sha256)))
      (Members.get? (p.jwk sha256) "kid")) = decide (q.kid sha256 ≠ p.kid sha256) := by
    intro q
    rw [get?_jwk_kid]
    simp [Json.jsStrictEq, beq_eq_decide]
  simp only [keepOthers, hkids, List.filter_map, List.map_map]
  congr 2
  exact List.filter_congr fun q _ => hkeep q

theorem kit_lawful (rt : Runtime) : (kit rt).Lawful rt.sha256 where
  join_plain base parts hbase hparts := ts_join_plain hbase hparts
  parse_ok answer b h := json_of_parse_file readBundle_doc (by simp) h
  parse_document td ids := by
    obtain ⟨b, hb, htd, hl⟩ := ts_fromDocument_document td ids
    exact ⟨b, hb, htd, fun ids' => by rw [htd]; rfl, hl⟩
  serialise_init _ _ := rfl
  parseId_ok s id := by
    change (parse s).mapError _ = _ ↔ _
    rw [mapError_eq_ok, ts_parse_eq]
  publicJwk_ok p := by
    refine ⟨p.jwk rt.sha256, ?_, rfl, keepOthers_jwks rt.sha256 p⟩
    simp only [kit, ts_publicJwk]

end Ts

namespace Go

theorem readBundle_doc (f : BundleFile) (b : Bundle String) (h : readBundle f = .ok b) : ∃ d, f = .doc d := by
  cases f with
  | doc d => exact ⟨d, rfl⟩
  | missing => cases h
  | notJson => cases h

theorem keepOthers_jwks (table : Char → Bool) (sha256 : Hash) (p : Point) (qs : List Point) :
    keepOthers (publicJwk table sha256 p) (qs.map fun q => .obj (q.jwk sha256)) =
      (qs.filter fun q => q.kid sha256 ≠ p.kid sha256).map fun q => .obj (q.jwk sha256) := by
  rw [keepOthers, go_publicJwk_kid]
  induction qs with
  | nil => rfl
  | cons q qs ih =>
    have hdec := decodeJwk_jwk sha256 q
    by_cases hkid : q.kid sha256 = p.kid sha256
    · simpa [hdec, hkid, List.filterMap_cons, Option.filter] using ih
    · simp only [List.map_cons, List.filterMap_cons, hdec, Option.filter, hkid, ne_eq,
        not_false_eq_true, decide_true, if_true, List.filter_cons_of_pos]
      exact congrArg₂ List.cons rfl ih

theorem kit_lawful (rt : Runtime) : (kit rt).Lawful rt.sha256 where
  join_plain base parts hbase hparts := go_join_plain hbase hparts
  parse_ok answer b h := json_of_parse_file readBundle_doc (by simp) h
  parse_document td ids := by
    obtain ⟨b, ws, hb, htd, hl⟩ := go_parseBundle_document td ids
    refine ⟨b, ?_, htd, fun ids' => by rw [← htd]; rfl, hl⟩
    change (parseBundle (document (.str td) ids)).map Prod.fst = .ok b
    rw [hb]
    rfl
  serialise_init _ _ := rfl
  parseId_ok s id := by
    change (parseSpiffeID s).mapError _ = _ ↔ _
    rw [mapError_eq_ok]
  publicJwk_ok p :=
    ⟨publicJwk rt.table rt.sha256 p, rfl, go_publicJwk rt.table rt.sha256 p,
      fun qs => congrArg Except.ok (keepOthers_jwks rt.table rt.sha256 p qs)⟩

end Go

end Spiffile
