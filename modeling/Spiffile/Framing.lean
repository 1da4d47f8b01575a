import Spiffile.Consistency
import Spiffile.Continuity

/-!
# What is written is what was read

A document of any origin loses on parsing what the reader skips, and the
serialisers write the rest. Parsed again, that rest is the same bundle. So an
update of one service leaves the answer for every other ID as it was.
-/

namespace Spiffile

open FileTree

/-! ### The parsed document, written again -/

namespace Impl

/-- `to_dict`, `toDocument` or `MarshalBundle` of the parsed document. -/
def rewritten (d : Json) : Impl → Option Json
  | python => (Py.fromDict d).toOption.map Py.toDict
  | typescript => (Ts.fromDocument d).toOption.map Ts.toDocument
  | go => (Go.parseBundle d).toOption.map fun b => Go.marshalBundle b.1

/-- A document of the trust domain is written again with the lists that are
found in it. -/
theorem rewritten_eq {d : Json} {td : String} {impl : Impl} (h : impl.domain (.doc d) = some td) :
    ∃ ids : Identities, impl.rewritten d = some (document (.str td) ids) ∧
      ∀ id, ids.lookup id = impl.bound (.doc d) id := by
  cases impl with
  | python =>
    obtain ⟨b, hb, htd⟩ := exists_of_toOption_bind h
    have hparse : Py.fromDict d = .ok b := hb
    have hdomain : b.trustDomain = .str td := by
      split at htd
      · next heq => rw [heq, Option.some_inj.mp htd]
      · cases htd
    refine ⟨b.identities, ?_, fun id => ?_⟩
    · rw [rewritten, hparse, ← hdomain]
      rfl
    · rw [bound, Py.readBundle, hparse]
      rfl
  | typescript =>
    obtain ⟨b, hb, rfl⟩ := Option.map_eq_some_iff.mp h
    have hparse : Ts.fromDocument d = .ok b := toOption_eq_some hb
    refine ⟨b.identities, ?_, fun id => ?_⟩
    · rw [rewritten, hparse]
      rfl
    · rw [bound, Ts.sourceGet, hparse]
      rfl
  | go =>
    obtain ⟨b, hb, rfl⟩ := Option.map_eq_some_iff.mp h
    obtain ⟨d', ws, heq, hparse⟩ := Go.readBundle_eq_ok (toOption_eq_some hb)
    cases heq
    refine ⟨b.identities, ?_, fun id => ?_⟩
    · rw [rewritten, hparse]
      rfl
    · rw [bound, Go.readBundle, hparse]
      rfl

/-- What is found in a document is found in it again, once it is written. -/
theorem readBack_bound {file : BundleFile} {td : String} {impl : Impl}
    (h : impl.domain file = some td) {ids : Identities} {id : String}
    (hid : ids.lookup id = impl.bound file id) : readBack td ids id = impl.bound file id := by
  rw [readBack, hid]
  cases hb : impl.bound file id with
  | none => simp
  | some keys =>
    obtain ⟨hne, hin⟩ := bound_inTrustDomain h hb
    simp [hin, Option.filter, hne]

/-- The same trust domain, the same lists, and nothing is skipped. -/
structure SameBundleAgain (impl : Impl) (d d' : Json) : Prop where
  domain : impl.domain (.doc d') = impl.domain (.doc d)
  bound : ∀ id, impl.bound (.doc d') id = impl.bound (.doc d) id
  all : impl.ReadsAll (.doc d')

theorem rewritten_same {d : Json} {td : String} {impl : Impl} (h : impl.domain (.doc d) = some td) :
    ∃ d', impl.rewritten d = some d' ∧ SameBundleAgain impl d d' := by
  obtain ⟨ids, hwritten, hids⟩ := rewritten_eq h
  have hback : ∀ id, readBack td ids id = impl.bound (.doc d) id := by
    intro id
    exact readBack_bound h (hids id)
  refine ⟨_, hwritten, ?_, ?_, ?_⟩
  · rw [domain_document, h]
  · intro id
    rw [bound_document, hback]
  · apply readsAll_document
    intro e he
    have hlook : ids.lookup e.1 = some e.2 := AList.mem_lookup_iff.mpr he
    exact ⟨e.2, by rw [hback, ← hids, hlook]⟩

end Impl

/-! ### An update of one service -/

/-- A call for the service of this name. -/
def Call.On (name : String) : Call → Prop
  | .initRoot _ => False
  | .addService m => m = name
  | .rotateService m _ => m = name
  | .removeService m => m = name

section

variable {ε τ κ : Type} {kit : Kit ε τ κ} {sha256 : Hash} {supply : ℕ → Point} {root : PathName}

/-- The bundle is untouched, or has the lists of `b` except under one ID. -/
def Framed (kit : Kit ε τ κ) (root : PathName) (b : Bundle τ) (id : String) (s t : Disk) : Prop :=
  t.tree.get (bundlePath root) = s.tree.get (bundlePath root) ∨
    ∃ ids : Identities, (∀ m, m ≠ id → ids.lookup m = b.identities.lookup m) ∧
      t.tree.get (bundlePath root) = some (updated kit b ids)

theorem bundlePath_not_below (root : PathName) (name : String) :
    ¬ serviceDir root name <+: bundlePath root := by
  intro h
  rw [serviceDir, bundlePath, List.prefix_append_right_inj] at h
  obtain ⟨rest, hrest⟩ := h
  have hhead : servicesDirname = bundleFilename := (List.cons.inj hrest).1
  exact absurd hhead (by decide)

variable (hroot : PlainPath root) (lawful : kit.Lawful sha256)

include hroot lawful

theorem framed_of_returns {removeFiles : PathName → Prog Cmd Ans ε Unit} {call : Call}
    {name : String} {s t : Disk} (hcall : call.On name)
    (hfiles : ∀ p u v, (removeFiles p).Returns (Disk.semantics supply) u () v →
      p = serviceDir root name → v.tree.get (bundlePath root) = u.tree.get (bundlePath root))
    (hplain : PlainPath (splitSlash name))
    (hret : (performWith kit removeFiles root call).Returns (Disk.semantics supply) s () t) :
    ∃ b, Reads kit root s b ∧ Framed kit root b (serviceId (kit.text b.trustDomain) name) s t := by
  cases call with
  | initRoot td => exact hcall.elim
  | addService m =>
    obtain rfl : m = name := hcall
    obtain ⟨r, u, hadd, hpure⟩ := Prog.returns_bind.mp hret
    obtain ⟨-, rfl⟩ := Prog.returns_pure.mp hpure
    obtain ⟨b, hreads, -, ⟨-, rfl⟩ | hadded⟩ := addService_returns hroot lawful hadd
    · exact ⟨b, hreads, Or.inl rfl⟩
    · obtain ⟨w, -, hnodes⟩ := hadded.nodes
      refine ⟨b, hreads, Or.inr ⟨_, ?_, (hnodes _).trans (if_pos rfl)⟩⟩
      intro id hid
      exact AList.lookup_insert_ne hid
  | rotateService m keepOld =>
    obtain rfl : m = name := hcall
    obtain ⟨r, u, hrotate, hpure⟩ := Prog.returns_bind.mp hret
    obtain ⟨-, rfl⟩ := Prog.returns_pure.mp hpure
    obtain ⟨b, hreads, -, hrenewed⟩ := rotateService_returns hroot lawful hrotate
    obtain ⟨k, others, -, -, hnodes⟩ := hrenewed.nodes
    refine ⟨b, hreads, Or.inr ⟨_, ?_, (hnodes _).trans (if_pos rfl)⟩⟩
    intro id hid
    exact AList.lookup_insert_ne hid
  | removeService m =>
    obtain rfl : m = name := hcall
    obtain ⟨b, u, hreads, hunlisted, hremove⟩ := removeService_returns hroot lawful hret
    have hsame := hfiles _ _ _ hremove (join_service lawful hroot hplain)
    refine ⟨b, hreads, Or.inr ⟨_, ?_, hsame.trans ((hunlisted.nodes _).trans (if_pos rfl))⟩⟩
    intro id hid
    exact AList.lookup_erase_ne hid

end

namespace Impl

section

variable {rt : Runtime} {supply : ℕ → Point} {root : PathName} (hroot : PlainPath root)

include hroot

theorem Takes.not_bundle {t : Volume Content} {td name : String} {impl : Impl}
    (hname : IsServiceName td name) : ¬ impl.Takes t (serviceDir root name) (bundlePath root) := by
  intro h
  exact bundlePath_not_below root name (Takes.below hroot (s := ⟨t, 0⟩) hname h).1

/-- The removal of the files of a service stays off the bundle. -/
theorem removed_bundle {ε : Type} {removeFiles : PathName → Prog Cmd Ans ε Unit} {impl : Impl}
    (hrun : ∀ p s, ∃ r t, (removeFiles p).run (Disk.semantics supply) s = (r, t) ∧
      (r.isOk = true ↔ impl.Completes rt s.tree p) ∧ Removed (fun q => impl.Takes s.tree p q) s t)
    {td name : String} (hname : IsServiceName td name) (p : PathName) (u v : Disk)
    (hret : (removeFiles p).Returns (Disk.semantics supply) u () v) (hp : p = serviceDir root name) :
    v.tree.get (bundlePath root) = u.tree.get (bundlePath root) := by
  obtain ⟨r, t, heq, -, hremoved⟩ := hrun p u
  obtain ⟨-, rfl⟩ := Prod.mk.inj (heq.symm.trans hret)
  rw [hp] at hremoved
  exact hremoved.left _ (Takes.not_bundle hroot hname)

/-- A framed update is one of what the reader finds. -/
theorem framed_bound {ε τ κ : Type} {kit : Kit ε τ κ} {impl : Impl} (hreader : kit.Reader impl)
    {s t : Disk} {d : Json} {b : Bundle τ} {td name : String}
    (hdoc : s.tree.get (bundlePath root) = some (.file (.json d)))
    (hdomain : impl.domain (.doc d) = some td) (hreads : Reads kit root s b)
    (h : Framed kit root b (serviceId (kit.text b.trustDomain) name) s t) :
    impl.domain (bundleFile root t) = some td ∧ ∀ m, m ≠ serviceId td name →
      impl.bound (bundleFile root t) m = impl.bound (.doc d) m := by
  obtain ⟨d', hd', hparse⟩ := hreads
  rw [hdoc] at hd'
  cases hd'
  obtain ⟨htext, hserialise, hlookup⟩ := hreader d b td hparse hdomain
  rcases h with hsame | ⟨ids, hids, hnew⟩
  · rw [bundleFile_of_get hroot (hsame.trans hdoc)]
    exact ⟨hdomain, fun _ _ => rfl⟩
  · rw [updated, hserialise] at hnew
    rw [htext] at hids
    rw [bundleFile_of_get hroot hnew]
    refine ⟨domain_document td ids impl, ?_⟩
    intro m hm
    have hlook : ids.lookup m = impl.bound (.doc d) m := by
      rw [hids m hm, hlookup]
    rw [bound_document]
    exact readBack_bound hdomain hlook

theorem Returns.framed {impl : Impl} {s t : Disk} {d : Json} {td name : String} {call : Call}
    (hdoc : s.tree.get (bundlePath root) = some (.file (.json d)))
    (hdomain : impl.domain (.doc d) = some td) (hname : IsServiceName td name)
    (hcall : call.On name) (hret : impl.Returns rt supply root call s t) :
    impl.domain (bundleFile root t) = some td ∧ ∀ m, m ≠ serviceId td name →
      impl.bound (bundleFile root t) m = impl.bound (.doc d) m := by
  have hplain := plain_of_isServiceName hname
  cases impl with
  | python =>
    rw [Returns, Py.perform_eq] at hret
    obtain ⟨b, hreads, hframed⟩ := framed_of_returns hroot (Py.kit_lawful rt) hcall
      (removed_bundle hroot (py_removeFiles_run supply rt) hname) hplain hret
    exact framed_bound hroot (Py.kit_reader rt) hdoc hdomain hreads hframed
  | typescript =>
    rw [Returns, Ts.perform_eq] at hret
    obtain ⟨b, hreads, hframed⟩ := framed_of_returns hroot (Ts.kit_lawful rt) hcall
      (removed_bundle hroot (ts_removeFiles_run supply rt) hname) hplain hret
    exact framed_bound hroot (Ts.kit_reader rt) hdoc hdomain hreads hframed
  | go =>
    rw [Returns, Go.perform_eq] at hret
    obtain ⟨b, hreads, hframed⟩ := framed_of_returns hroot (Go.kit_lawful rt) hcall
      (removed_bundle hroot (go_removeFiles_run supply rt) hname) hplain hret
    exact framed_bound hroot (Go.kit_reader rt) hdoc hdomain hreads hframed

end

end Impl

namespace Sample

/-- A document from elsewhere, with members and an entry the readers skip. -/
def foreign : Json :=
  .obj [("note", .bool true), ("identities", .obj [("spiffe://a.b/y", .obj [("keys", .arr
    [.obj [("alg", .null), ("x5c", .arr [.dec (1 / 2)])], .str "key"]), ("use", .int 7)]),
    ("spiffe://a.b/x", .obj [("keys", .arr [.obj []])]), ("A.b", .null)]),
    ("spiffile_version", .int 1), ("trust_domain", .str "a.b")]

def imported : Disk := registered.withBundle root (.json foreign)

theorem imported_bundle : imported.tree.get (bundlePath root) = some (.file (.json foreign)) := by
  have hput : registered.tree.Puttable (bundlePath root) := by decide
  rw [imported, Disk.withBundle, Volume.get_put hput, if_pos rfl]

end Sample

end Spiffile
