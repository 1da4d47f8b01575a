import Spiffile.Removal

/-!
# Key files, identity files and the bundle

What holds of a root after any sequence of calls that return: the bundle lists
the live key of each service first, keys are listed once and under one ID, and
nothing in the bundle is skipped. A recursive removal can break it, where the
directory it removes is another service's `id` file.
-/

namespace Spiffile

open FileTree

/-! ### The invariant -/

section

variable (sha256 : Hash) (supply : ℕ → Point) (root : PathName) (td : String)

/-- One list: distinct keys of the supply that belong to the ID. -/
def Listed (owner : ℕ → String) (n : ℕ) (id : String) (keys : List Json) : Prop :=
  ∃ is : List ℕ, keys = is.map (jwkAt sha256 supply) ∧ is ≠ [] ∧ is.Nodup ∧
    ∀ i ∈ is, i < n ∧ owner i = id

/-- The root, with the identities of its bundle and the ID each key was made
for. -/
structure Tidy (ids : Identities) (owner : ℕ → String) (s : Disk) : Prop where
  bundle : s.tree.get (bundlePath root) = some (.file (.json (document (.str td) ids)))
  listed : ∀ id keys, ids.lookup id = some keys →
    inTrustDomain td id = true ∧ Listed sha256 supply owner s.generated id keys
  live : ∀ name, IsServiceName td name → ∀ c, s.tree.get (keyPath root name) = some (.file c) →
    s.tree.get (idPath root name) = some (.file (.text (serviceId td name ++ "\n"))) ∧
      ∃ i rest, c = .key (supply i) ∧
        ids.lookup (serviceId td name) = some (jwkAt sha256 supply i :: rest)

end

section

variable {sha256 : Hash} {supply : ℕ → Point} {root : PathName} {td : String} {ids : Identities}
  {owner : ℕ → String} {s : Disk}

theorem Listed.ne_nil {n : ℕ} {id : String} {keys : List Json}
    (h : Listed sha256 supply owner n id keys) : keys ≠ [] := by
  obtain ⟨is, rfl, hne, -⟩ := h
  simpa using hne

/-- A later key changes nothing for the lists there are. -/
theorem Listed.later {n : ℕ} {id id' : String} {keys : List Json}
    (h : Listed sha256 supply owner n id keys) :
    Listed sha256 supply (Function.update owner n id') (n + 1) id keys := by
  obtain ⟨is, hkeys, hne, hnodup, his⟩ := h
  refine ⟨is, hkeys, hne, hnodup, fun i hi => ⟨Nat.lt_succ_of_lt (his i hi).1, ?_⟩⟩
  rw [Function.update_of_ne (his i hi).1.ne, (his i hi).2]

/-- Nothing of the bundle is lost when it is read. -/
theorem Tidy.readBack_eq (h : Tidy sha256 supply root td ids owner s) (id : String) :
    readBack td ids id = ids.lookup id := by
  unfold readBack
  cases hl : ids.lookup id with
  | none => simp
  | some keys =>
    obtain ⟨hin, hlist⟩ := h.listed id keys hl
    simp [hin, Option.filter, hlist.ne_nil]

variable {ε τ κ : Type} {kit : Kit ε τ κ} (lawful : kit.Lawful sha256)

include lawful

theorem Tidy.reads (h : Tidy sha256 supply root td ids owner s) {b : Bundle τ}
    (hb : Reads kit root s b) :
    ReadFrom kit td ids b ∧ ∀ id, b.identities.lookup id = ids.lookup id := by
  obtain ⟨d, hd, hparse⟩ := hb
  rw [h.bundle] at hd
  cases hd
  have hfrom := lawful.readFrom hparse
  exact ⟨hfrom, fun id => (hfrom.lookup id).trans (h.readBack_eq id)⟩

end

/-! ### Each call keeps it -/

section

variable {sha256 : Hash} {supply : ℕ → Point} {root : PathName} {td : String}
  {ids : Identities} {owner : ℕ → String} {s t : Disk}

/-- What adding a service and rotating its key have in common: the new key and
the ID are in its files, and those of the others are as they were. -/
structure Rekeyed (supply : ℕ → Point) (root : PathName) (td : String) (ids : Identities)
    (name : String) (s t : Disk) : Prop where
  generated : t.generated = s.generated + 1
  bundle : t.tree.get (bundlePath root) = some (.file (.json (document (.str td) ids)))
  key : t.tree.get (keyPath root name) = some (.file (.key (supply s.generated)))
  id : t.tree.get (idPath root name) = some (.file (.text (serviceId td name ++ "\n")))
  otherKey : ∀ m, m ≠ name → ∀ c, t.tree.get (keyPath root m) = some (.file c) →
    s.tree.get (keyPath root m) = some (.file c)
  otherId : ∀ m, m ≠ name → ∀ c, s.tree.get (idPath root m) = some (.file c) →
    t.tree.get (idPath root m) = some (.file c)

/-- The new key is listed first, before keys that the service had. -/
theorem Tidy.rekeyed (h : Tidy sha256 supply root td ids owner s) {b : Identities} {name : String}
    {is : List ℕ} (hin : inTrustDomain td (serviceId td name) = true)
    (hb : ∀ id, b.lookup id = ids.lookup id) (hnodup : is.Nodup)
    (his : ∀ i ∈ is, i < s.generated ∧ owner i = serviceId td name)
    (ht : Rekeyed supply root td (b.insert (serviceId td name)
      (jwkAt sha256 supply s.generated :: is.map (jwkAt sha256 supply))) name s t) :
    ∃ ids' owner', Tidy sha256 supply root td ids' owner' t := by
  refine ⟨_, Function.update owner s.generated (serviceId td name), ht.bundle,
    fun id keys hl => ?_, fun m hm c hc => ?_⟩
  · rw [ht.generated]
    by_cases he : id = serviceId td name
    · subst he
      rw [AList.lookup_insert] at hl
      cases hl
      refine ⟨hin, s.generated :: is, rfl, List.cons_ne_nil _ _,
        List.nodup_cons.mpr ⟨fun hi => (his _ hi).1.ne rfl, hnodup⟩, fun i hi => ?_⟩
      rcases List.mem_cons.mp hi with rfl | hi
      · exact ⟨Nat.lt_succ_self _, Function.update_self ..⟩
      · exact ⟨Nat.lt_succ_of_lt (his i hi).1,
          by rw [Function.update_of_ne (his i hi).1.ne, (his i hi).2]⟩
    · rw [AList.lookup_insert_ne he, hb] at hl
      exact ⟨(h.listed id keys hl).1, (h.listed id keys hl).2.later⟩
  · by_cases he : m = name
    · subst he
      rw [ht.key] at hc
      cases hc
      exact ⟨ht.id, _, _, rfl, AList.lookup_insert _⟩
    · obtain ⟨htext, i, rest, hi, hl⟩ := h.live m hm c (ht.otherKey m he c hc)
      refine ⟨ht.otherId m he _ htext, i, rest, hi, ?_⟩
      rw [AList.lookup_insert_ne fun h => he (serviceId_injective td h), hb]
      exact hl

variable {ε τ κ : Type} {kit : Kit ε τ κ} (lawful : kit.Lawful sha256)

include lawful

theorem tidy_of_initialised (h : Initialised kit root td s t)
    (hkeys : ∀ name, IsServiceName td name → ∀ c, s.tree.get (keyPath root name) ≠ some (.file c)) :
    Tidy sha256 supply root td ∅ owner t := by
  obtain ⟨u, hgrown, hnodes⟩ := h.nodes
  refine ⟨?_, fun id keys hl => by simp at hl, fun name hname c hc => ?_⟩
  · rw [hnodes, if_pos rfl, lawful.serialise_init]
  · rw [hnodes, if_neg (keyPath_ne_bundlePath root name), hgrown.file_iff] at hc
    exact absurd hc (hkeys name hname c)

theorem Tidy.added (h : Tidy sha256 supply root td ids owner s) (htd : IsTrustDomain td.toList)
    {b : Bundle τ} {name : String} (hb : Reads kit root s b)
    (hname : IsServiceName (kit.text b.trustDomain) name)
    (ht : Added kit sha256 supply root b name s t) :
    ∃ ids' owner', Tidy sha256 supply root td ids' owner' t := by
  obtain ⟨hfrom, hlookup⟩ := h.reads lawful hb
  obtain ⟨u, hgrown, hnodes⟩ := ht.nodes
  rw [hfrom.text] at hname
  rw [hfrom.text, updated, hfrom.serialise] at hnodes
  have hkb := keyPath_ne_bundlePath root
  have hib := idPath_ne_bundlePath root
  have hik := idPath_ne_keyPath root
  have hrekeyed : Rekeyed supply root td (b.identities.insert (serviceId td name)
      (jwkAt sha256 supply s.generated :: ([] : List ℕ).map (jwkAt sha256 supply))) name s t := {
    generated := ht.generated
    bundle := by rw [hnodes, if_pos rfl, List.map_nil]
    key := by rw [hnodes, if_neg (hkb _), if_neg (hik _ _).symm, if_pos rfl]
    id := by rw [hnodes, if_neg (hib _), if_pos rfl]
    otherKey := fun m hm c hc => by
      rw [hnodes, if_neg (hkb _), if_neg (hik _ _).symm,
        if_neg fun h => hm (keyPath_injective root h)] at hc
      exact (hgrown.file_iff _ _).mp hc
    otherId := fun m hm c hc => by
      rw [hnodes, if_neg (hib _), if_neg fun h => hm (idPath_injective root h), if_neg (hik _ _)]
      exact hgrown.of_some hc }
  exact h.rekeyed (inTrustDomain_serviceId htd hname) hlookup List.nodup_nil (by simp) hrekeyed

theorem Tidy.rotated (h : Tidy sha256 supply root td ids owner s) (htd : IsTrustDomain td.toList)
    {b : Bundle τ} {name : String} {keepOld : Bool} (hb : Reads kit root s b)
    (hname : IsServiceName (kit.text b.trustDomain) name)
    (ht : Renewed kit sha256 supply root b name keepOld s t) :
    ∃ ids' owner', Tidy sha256 supply root td ids' owner' t := by
  obtain ⟨hfrom, hlookup⟩ := h.reads lawful hb
  obtain ⟨k, others, hk, hothers, hnodes⟩ := ht.nodes
  rw [hfrom.text] at hname hothers
  rw [hfrom.text, updated, hfrom.serialise] at hnodes
  -- the keys that were listed, if they stay
  have hold : ∃ is : List ℕ, (if keepOld then (b.identities.lookup (serviceId td name)).getD [] else []) =
      is.map (jwkAt sha256 supply) ∧ is.Nodup ∧
        ∀ i ∈ is, i < s.generated ∧ owner i = serviceId td name := by
    cases keepOld with
    | false => exact ⟨[], rfl, List.nodup_nil, by simp⟩
    | true =>
      cases hl : ids.lookup (serviceId td name) with
      | none => exact ⟨[], by simp [hlookup, hl], List.nodup_nil, by simp⟩
      | some keys =>
        obtain ⟨-, is, rfl, -, hnodup, his⟩ := h.listed _ _ hl
        exact ⟨is, by simp [hlookup, hl], hnodup, his⟩
  obtain ⟨is, hkeys, hnodup, his⟩ := hold
  rw [hkeys, (jwk_of_generated lawful hk).2] at hothers
  cases hothers
  obtain ⟨c, hc⟩ := ht.present
  have hkb := keyPath_ne_bundlePath root
  have hib := idPath_ne_bundlePath root
  have hik := idPath_ne_keyPath root
  refine h.rekeyed (inTrustDomain_serviceId htd hname) hlookup
    (hnodup.filter fun i => (supply i).kid sha256 ≠ (supply s.generated).kid sha256)
    (fun i hi => his i (List.mem_filter.mp hi).1) {
      generated := ht.generated
      bundle := by rw [hnodes, if_pos rfl]
      key := by rw [hnodes, if_neg (hkb _), if_pos rfl]
      id := ?_
      otherKey := fun m hm c hc => ?_
      otherId := fun m hm c hc => ?_ }
  · rw [hnodes, if_neg (hib _), if_neg (hik _ _)]
    exact (h.live name hname c hc).1
  · rwa [hnodes, if_neg (hkb _), if_neg fun h => hm (keyPath_injective root h)] at hc
  · rwa [hnodes, if_neg (hib _), if_neg (hik _ _)]

end

/-! ### A removal keeps it -/

/-- A recursive removal whose directory is the `id` file of a service with a
key. -/
def Impl.StripsId (root : PathName) (td name : String) (s : Disk) (impl : Impl) : Prop :=
  impl ≠ .python ∧ ∃ m c, IsServiceName td m ∧ name = m ++ "/" ++ idFilename ∧
    s.tree.get (keyPath root m) = some (.file c)

section

variable {rt : Runtime} {supply : ℕ → Point} {root : PathName} (hroot : PlainPath root) {td : String}
  {ids : Identities} {s t : Disk} {name : String} {impl : Impl}

include hroot

theorem Impl.join_service (rt : Runtime) (hname : PlainPath (splitSlash name)) (impl : Impl) :
    impl.join root [servicesDirname, name] = serviceDir root name := by
  cases impl with
  | python => exact Spiffile.join_service (Py.kit_lawful rt) hroot hname
  | typescript => exact Spiffile.join_service (Ts.kit_lawful rt) hroot hname
  | go => exact Spiffile.join_service (Go.kit_lawful rt) hroot hname

variable (hname : IsServiceName td name) (hend : impl.Ending rt root td ids name s true t)

include hname

theorem Impl.Takes.below {q : PathName} (h : impl.Takes s.tree (serviceDir root name) q) :
    serviceDir root name <+: q ∧ ∃ n, s.tree.get (serviceDir root name) = some n := by
  obtain ⟨d, n, hstat, hpre⟩ := h.stat
  obtain ⟨rfl, hget⟩ :=
    Volume.stat_plain_eq_ok (plainPath_serviceDir hroot (plain_of_isServiceName hname)) _ hstat
  exact ⟨hpre, n, hget⟩

theorem Impl.not_takes_bundle : ¬ impl.Takes s.tree (serviceDir root name) (bundlePath root) := by
  intro htakes
  have hpre := (htakes.below hroot hname).1
  rw [serviceDir, bundlePath, List.prefix_append_right_inj, List.cons_prefix_cons] at hpre
  exact absurd hpre.1 (by decide)

omit hname in
/-- A directory above an `id` file but not above the key next to it is that file. -/
theorem strips_of_below (hplain : PlainPath (splitSlash name)) {m : String} {n : Node Content}
    {c : Content} (hpre : serviceDir root name <+: idPath root m)
    (hget : s.tree.get (serviceDir root name) = some n)
    (hnot : ¬ ∃ d n, s.tree.stat (serviceDir root name) = .ok (d, n) ∧ d <+: keyPath root m ∧
      keyPath root m ≠ [])
    (hc : s.tree.get (keyPath root m) = some (.file c)) (hm : IsServiceName td m) :
    ∃ m c, IsServiceName td m ∧ name = m ++ "/" ++ idFilename ∧
      s.tree.get (keyPath root m) = some (.file c) := by
  rcases List.prefix_concat_iff.mp hpre with heq | habove
  · refine ⟨m, c, hm, serviceDir_injective root ?_, hc⟩
    rw [heq, serviceDir, serviceDir, splitSlash_append, splitSlash_idFilename, List.append_assoc,
      List.cons_append]
  · have hstat := Volume.stat_plain_some (plainPath_serviceDir hroot hplain) _ hget
    exact absurd ⟨_, _, hstat, habove.trans (List.prefix_append _ _), by simp [keyPath]⟩ hnot

include hend

/-- The two files are gone, if they were there. -/
theorem Impl.Ending.own_gone {file : String} (hfile : file = keyFilename ∨ file = idFilename)
    (c : Content) : t.tree.get (serviceDir root name ++ [file]) ≠ some (.file c) := by
  intro hc
  have hplain := plain_of_isServiceName hname
  have hcompletes := hend.ok_iff.mp rfl
  have hne : serviceDir root name ++ [file] ≠ bundlePath root := by
    rcases hfile with rfl | rfl
    · exact keyPath_ne_bundlePath root name
    · exact idPath_ne_bundlePath root name
  have htaken := hend.taken (serviceDir root name ++ [file])
  have hsame := hend.same hne
  rw [impl.join_service hroot rt hplain] at hcompletes htaken hsame
  have hnot : ¬ impl.Takes s.tree (serviceDir root name) (serviceDir root name ++ [file]) := by
    intro htakes
    rw [htaken htakes] at hc
    cases hc
  rw [hsame hnot] at hc
  have hstat : s.tree.stat (serviceDir root name) = .ok (serviceDir root name, .dir) :=
    Volume.stat_plain_some (plainPath_serviceDir hroot hplain) _ (s.tree.get_parent hc)
  have hlong : ∃ d n, s.tree.stat (serviceDir root name) = .ok (d, n) ∧
      d <+: serviceDir root name ++ [file] ∧ serviceDir root name ++ [file] ≠ [] :=
    ⟨_, _, hstat, List.prefix_append _ _, by simp⟩
  cases impl with
  | python =>
    rcases hcompletes with h | ⟨d, h, hrem⟩
    · rw [hstat] at h
      cases h
    · rw [hstat] at h
      cases h
      rcases hfile with rfl | rfl
      · exact hnot ⟨_, hstat, Or.inr (Or.inl ⟨rfl, hrem.id, hrem.key⟩)⟩
      · exact hnot ⟨_, hstat, Or.inl ⟨rfl, hrem.id⟩⟩
  | typescript => exact hnot hlong
  | go => exact hnot hlong

theorem Impl.Ending.key_gone (c : Content) : t.tree.get (keyPath root name) ≠ some (.file c) :=
  hend.own_gone hroot hname (Or.inl rfl) c

theorem Impl.Ending.id_gone (c : Content) : t.tree.get (idPath root name) ≠ some (.file c) :=
  hend.own_gone hroot hname (Or.inr rfl) c

omit hname hroot in
/-- A key file that is there was not taken. -/
theorem Impl.Ending.key_kept {m : String} {c : Content}
    (hc : t.tree.get (keyPath root m) = some (.file c)) :
    ¬ impl.Takes s.tree (impl.join root [servicesDirname, name]) (keyPath root m) ∧
      s.tree.get (keyPath root m) = some (.file c) := by
  have hnot : ¬ impl.Takes s.tree (impl.join root [servicesDirname, name]) (keyPath root m) := by
    intro htakes
    rw [hend.taken _ htakes] at hc
    cases hc
  exact ⟨hnot, (hend.same (keyPath_ne_bundlePath root m) hnot).symm.trans hc⟩

/-- A service that keeps its key keeps its `id` file, unless that is what the
call removes. -/
theorem Impl.Ending.id_kept (hstrips : ¬ impl.StripsId root td name s) {m : String}
    (hm : IsServiceName td m) {c c' : Content}
    (hc : t.tree.get (keyPath root m) = some (.file c))
    (hc' : s.tree.get (idPath root m) = some (.file c')) :
    t.tree.get (idPath root m) = some (.file c') := by
  have hplain := plain_of_isServiceName hname
  obtain ⟨hnot, hkey⟩ := hend.key_kept hc
  have hsame := hend.same (idPath_ne_bundlePath root m)
  rw [impl.join_service hroot rt hplain] at hnot hsame
  refine (hsame fun htakes => ?_).trans hc'
  obtain ⟨hpre, n, hget⟩ := htakes.below hroot hname
  cases impl with
  | python =>
    obtain ⟨d, hstat, htakes⟩ := htakes
    obtain ⟨rfl, hdir⟩ := Volume.stat_plain_eq_ok (plainPath_serviceDir hroot hplain) _ hstat
    rcases htakes with ⟨hq, -⟩ | ⟨hq, -⟩ | ⟨hq, -⟩
    · rw [idPath_injective root hq] at hc
      exact hend.key_gone hroot hname c hc
    · exact idPath_ne_keyPath root m name hq
    · rw [hq, hdir] at hc'
      cases hc'
  | typescript => exact hstrips ⟨by simp, strips_of_below hroot hplain hpre hget hnot hkey hm⟩
  | go => exact hstrips ⟨by simp, strips_of_below hroot hplain hpre hget hnot hkey hm⟩

theorem Tidy.removed {owner : ℕ → String} (h : Tidy rt.sha256 supply root td ids owner s)
    (hstrips : ¬ impl.StripsId root td name s) :
    ∃ ids', Tidy rt.sha256 supply root td ids' owner t := by
  obtain ⟨ids', hlookup, hleft⟩ := hend.left
  have hother : ∀ id, id ≠ serviceId td name → ids'.lookup id = ids.lookup id := fun id hid => by
    rw [hlookup, if_neg hid, h.readBack_eq]
  refine ⟨ids', ?_, fun id keys hl => ?_, fun m hm c hc => ?_⟩
  · rw [hleft, if_pos rfl]
    rw [impl.join_service hroot rt (plain_of_isServiceName hname)]
    exact impl.not_takes_bundle hroot hname
  · by_cases hid : id = serviceId td name
    · rw [hlookup, if_pos hid] at hl
      cases hl
    · rw [hother id hid] at hl
      rw [hend.generated]
      exact h.listed id keys hl
  · have hne : m ≠ name := by
      rintro rfl
      exact hend.key_gone hroot hname c hc
    obtain ⟨htext, i, rest, hi, hl⟩ := h.live m hm c (hend.key_kept hc).2
    refine ⟨hend.id_kept hroot hname hstrips hm hc htext, i, rest, hi, ?_⟩
    rw [hother _ fun h => hne (serviceId_injective td h)]
    exact hl

end

/-! ### Runs of calls that return -/

/-- A call for a service with an accepted name. -/
def Call.Names (td : String) : Call → Prop
  | .initRoot _ => False
  | .addService name => IsServiceName td name
  | .rotateService name _ => IsServiceName td name
  | .removeService name => IsServiceName td name

/-- One such call, which returns, and strips no service of its `id` file. -/
def ServiceCall (rt : Runtime) (supply : ℕ → Point) (root : PathName) (td : String) (s t : Disk) : Prop :=
  ∃ (impl : Impl) (call : Call), call.Names td ∧ impl.Returns rt supply root call s t ∧
    ∀ name, call = .removeService name → ¬ impl.StripsId root td name s

section

variable {rt : Runtime} {supply : ℕ → Point} {root : PathName} (hroot : PlainPath root) {td : String}
  {ids : Identities} {owner : ℕ → String} {s t : Disk}

theorem Impl.Returns.outcome {call : Call} {impl : Impl} (h : impl.Returns rt supply root call s t) :
    impl.outcome rt supply root call s = (true, t) := by
  cases impl <;>
  · simp only [Impl.Returns, Prog.Returns] at h
    simp only [Impl.outcome, h]
    rfl

include hroot

/-- The calls of one implementation other than a removal. -/
theorem Tidy.performed {ε τ κ : Type} {kit : Kit ε τ κ} (lawful : kit.Lawful rt.sha256)
    (htd : IsTrustDomain td.toList) (h : Tidy rt.sha256 supply root td ids owner s)
    {removeFiles : PathName → Prog Cmd Ans ε Unit} {call : Call} (hcall : call.Names td)
    (hremove : ∀ name, call ≠ .removeService name)
    (hret : (performWith kit removeFiles root call).Returns (Disk.semantics supply) s () t) :
    ∃ ids' owner', Tidy rt.sha256 supply root td ids' owner' t := by
  cases call with
  | initRoot td => exact hcall.elim
  | addService name =>
    obtain ⟨r, u, hadd, hpure⟩ := Prog.returns_bind.mp hret
    obtain ⟨-, rfl⟩ := Prog.returns_pure.mp hpure
    obtain ⟨b, hreads, hname, ⟨-, rfl⟩ | hadded⟩ := addService_returns hroot lawful hadd
    · exact ⟨ids, owner, h⟩
    · exact h.added lawful htd hreads hname hadded
  | rotateService name keepOld =>
    obtain ⟨r, u, hrotate, hpure⟩ := Prog.returns_bind.mp hret
    obtain ⟨-, rfl⟩ := Prog.returns_pure.mp hpure
    obtain ⟨b, hreads, hname, hrenewed⟩ := rotateService_returns hroot lawful hrotate
    exact h.rotated lawful htd hreads hname hrenewed
  | removeService name => exact absurd rfl (hremove name)

theorem Tidy.step (htd : IsTrustDomain td.toList) (h : Tidy rt.sha256 supply root td ids owner s)
    (hstep : ServiceCall rt supply root td s t) :
    ∃ ids' owner', Tidy rt.sha256 supply root td ids' owner' t := by
  obtain ⟨impl, call, hcall, hret, hstrips⟩ := hstep
  by_cases hremove : ∃ name, call = .removeService name
  · obtain ⟨name, rfl⟩ := hremove
    obtain ⟨ok, u, hout, hend⟩ := impl.removeService_ending rt supply hroot h.bundle name
    cases hret.outcome.symm.trans hout
    obtain ⟨ids', htidy⟩ := h.removed hroot hcall hend (hstrips name rfl)
    exact ⟨ids', owner, htidy⟩
  · have hremove' : ∀ name, call ≠ .removeService name := fun name hc => hremove ⟨name, hc⟩
    cases impl with
    | python =>
      rw [Impl.Returns, Py.perform_eq] at hret
      exact h.performed hroot (Py.kit_lawful rt) htd hcall hremove' hret
    | typescript =>
      rw [Impl.Returns, Ts.perform_eq] at hret
      exact h.performed hroot (Ts.kit_lawful rt) htd hcall hremove' hret
    | go =>
      rw [Impl.Returns, Go.perform_eq] at hret
      exact h.performed hroot (Go.kit_lawful rt) htd hcall hremove' hret

theorem tidy_of_init (hkeys : ∀ name, IsServiceName td name → ∀ c,
      s.tree.get (keyPath root name) ≠ some (.file c)) {impl : Impl}
    (hret : impl.Returns rt supply root (.initRoot td) s t) :
    Tidy rt.sha256 supply root td ∅ (fun _ => "") t := by
  cases impl with
  | python =>
    have lawful := Py.kit_lawful rt
    exact tidy_of_initialised lawful (initRoot_returns hroot lawful hret) hkeys
  | typescript =>
    have lawful := Ts.kit_lawful rt
    exact tidy_of_initialised lawful (initRoot_returns hroot lawful hret) hkeys
  | go =>
    have lawful := Go.kit_lawful rt
    exact tidy_of_initialised lawful (initRoot_returns hroot lawful hret) hkeys

theorem Tidy.run (htd : IsTrustDomain td.toList) (h : Tidy rt.sha256 supply root td ids owner s)
    (hrun : Relation.ReflTransGen (ServiceCall rt supply root td) s t) :
    ∃ ids' owner', Tidy rt.sha256 supply root td ids' owner' t := by
  induction hrun with
  | refl => exact ⟨ids, owner, h⟩
  | tail _ hlast ih =>
    obtain ⟨ids', owner', h'⟩ := ih
    exact h'.step hroot htd hlast

end

/-! ### What a reader sees of it -/

/-- The member `kid` of a JWK. -/
def kidOf : Json → Option Json
  | .obj ms => Members.get? ms "kid"
  | _ => none

/-- The reader parses the file, and skips no member of `identities`. -/
def Impl.ReadsAll (file : BundleFile) (reader : Impl) : Prop :=
  (match reader with
    | python => (Py.readBundle file).isOk = true
    | typescript => (Ts.sourceGet file).isOk = true
    | go => (Go.readBundle file).isOk = true) ∧
  ∃ ms es, file = .doc (.obj ms) ∧ Members.get? ms "identities" = some (.obj es) ∧
    ∀ m ∈ es, ∃ jwks, reader.bound file m.1 = some jwks

/-- Every list that was written is found. -/
theorem Impl.readsAll_document {td : String} {ids : Identities} {impl : Impl}
    (hall : ∀ e ∈ ids.entries, ∃ keys, readBack td ids e.1 = some keys) :
    impl.ReadsAll (.doc (document (.str td) ids)) := by
  constructor
  · cases impl with
    | python =>
      obtain ⟨b, hb, -⟩ := py_fromDict_document td ids
      simp only [Py.readBundle, hb]
      rfl
    | typescript =>
      obtain ⟨b, hb, -⟩ := ts_fromDocument_document td ids
      simp only [Ts.sourceGet, hb]
      rfl
    | go =>
      obtain ⟨b, ws, hb, -⟩ := go_parseBundle_document td ids
      simp only [Go.readBundle, hb]
      rfl
  · refine ⟨_, _, rfl, rfl, ?_⟩
    intro m hm
    obtain ⟨e, he, rfl⟩ := List.mem_map.mp hm
    obtain ⟨keys, hkeys⟩ := hall e he
    exact ⟨keys, (bound_document td ids e.1 impl).trans hkeys⟩

structure Coherent (sha256 : Hash) (root : PathName) (td : String) (s : Disk) : Prop where
  live : ∀ name, IsServiceName td name → ∀ c, s.tree.get (keyPath root name) = some (.file c) →
    s.tree.get (idPath root name) = some (.file (.text (serviceId td name ++ "\n"))) ∧
      ∃ p, c = .key p ∧ ∀ reader : Impl, ∃ rest,
        reader.bound (bundleFile root s) (serviceId td name) = some (.obj (p.jwk sha256) :: rest)
  kids : ∀ (reader : Impl) id jwks, reader.bound (bundleFile root s) id = some jwks →
    (jwks.map kidOf).Nodup
  apart : ∀ (reader reader' : Impl) id id' p, reader.BindsKey (bundleFile root s) id p →
    reader'.BindsKey (bundleFile root s) id' p → id = id'
  all : ∀ reader : Impl, reader.ReadsAll (bundleFile root s)

theorem kidOf_jwkAt (sha256 : Hash) (supply : ℕ → Point) (i : ℕ) :
    kidOf (jwkAt sha256 supply i) = some (.str ((supply i).kid sha256)) :=
  get?_jwk_kid sha256 (supply i)

section

variable {sha256 : Hash} {supply : ℕ → Point} {root : PathName} (hroot : PlainPath root)
  {td : String} {ids : Identities} {owner : ℕ → String} {s : Disk}

include hroot

theorem Tidy.bound (h : Tidy sha256 supply root td ids owner s) (reader : Impl) (id : String) :
    reader.bound (bundleFile root s) id = ids.lookup id := by
  rw [bundleFile_of_get hroot h.bundle, bound_document, h.readBack_eq]

/-- Where the thumbprints differ, so do the keys and the owners. -/
theorem Tidy.coherent (h : Tidy sha256 supply root td ids owner s)
    (hkids : Set.InjOn (fun i => (supply i).kid sha256) (Set.Iio s.generated)) :
    Coherent sha256 root td s := by
  refine ⟨fun name hname c hc => ?_, fun reader id jwks hb => ?_,
    fun reader reader' id id' p hb hb' => ?_, fun reader => ?_⟩
  · obtain ⟨htext, i, rest, rfl, hl⟩ := h.live name hname c hc
    exact ⟨htext, supply i, rfl, fun reader => ⟨rest, by rw [h.bound hroot, hl]; rfl⟩⟩
  · rw [h.bound hroot] at hb
    obtain ⟨-, is, rfl, -, hnodup, his⟩ := h.listed id jwks hb
    rw [List.map_map]
    refine hnodup.map_on fun i hi j hj hij => ?_
    simp only [Function.comp_apply, kidOf_jwkAt, Option.some.injEq, Json.str.injEq] at hij
    exact hkids (Set.mem_Iio.mpr (his i hi).1) (Set.mem_Iio.mpr (his j hj).1) hij
  · have hsound : Sound sha256 supply root (fun id i => owner i = id) 0 s := by
      refine ⟨Nat.zero_le _, fun d hd => ?_⟩
      rw [h.bundle] at hd
      cases hd
      refine ⟨td, ids, rfl, fun id keys hl => ?_⟩
      obtain ⟨-, is, hkeys, -, -, his⟩ := h.listed id keys hl
      exact ⟨is, hkeys, his⟩
    obtain ⟨i, hi, rfl, hip⟩ := hsound.index_of_bindsKey hroot hb
    obtain ⟨j, hj, rfl, hjp⟩ := hsound.index_of_bindsKey hroot hb'
    have hij : i = j := hkids (Set.mem_Iio.mpr hi) (Set.mem_Iio.mpr hj)
      (congrArg (Point.kid sha256) (hip.trans hjp.symm))
    rw [hij]
  · rw [bundleFile_of_get hroot h.bundle]
    apply Impl.readsAll_document
    intro e he
    exact ⟨e.2, (h.readBack_eq e.1).trans (AList.mem_lookup_iff.mpr he)⟩

end

/-- After `init` of a root without keys, any sequence of calls that return
keeps key files, `id` files and the bundle together, as long as no recursive
removal strips a service of its `id` file. -/
theorem provisioning_coherent (rt : Runtime) (supply : ℕ → Point) (root : PathName)
    (hroot : PlainPath root) (td : String) (htd : IsTrustDomain td.toList) (s₀ s₁ s₂ : Disk)
    (hkeys : ∀ name, IsServiceName td name → ∀ c,
      s₀.tree.get (keyPath root name) ≠ some (.file c)) (impl : Impl)
    (hinit : impl.Returns rt supply root (.initRoot td) s₀ s₁)
    (hrun : Relation.ReflTransGen (ServiceCall rt supply root td) s₁ s₂)
    (hkids : Set.InjOn (fun i => (supply i).kid rt.sha256) (Set.Iio s₂.generated)) :
    Coherent rt.sha256 root td s₂ := by
  obtain ⟨ids, owner, htidy⟩ := (tidy_of_init hroot hkeys hinit).run hroot htd hrun
  exact htidy.coherent hroot hkids

/-! ### A service named like a file of another -/

namespace Sample

def initialised : Disk := after (.initRoot "a.b") emptyDisk

theorem initialised_returns :
    Impl.typescript.Returns runtime supply root (.initRoot "a.b") emptyDisk initialised :=
  returns_after rfl

theorem registered_returns :
    Impl.typescript.Returns runtime supply root (.addService "x") initialised registered :=
  returns_after rfl

theorem isServiceName_x : IsServiceName "a.b" "x" := ⟨⟨"a.b", "/x"⟩, rfl⟩

theorem emptyDisk_keys (name : String) (c : Content) :
    emptyDisk.tree.get (keyPath root name) ≠ some (.file c) := by
  intro h
  have hmem := AList.mem_lookup_iff.mp h
  simp [emptyDisk, emptyVolume] at hmem

theorem registered_kids :
    Set.InjOn (fun i => (supply i).kid runtime.sha256) (Set.Iio registered.generated) := by
  have hcount : registered.generated = 1 := rfl
  intro i hi j hj _
  rw [hcount, Set.mem_Iio] at hi hj
  omega

theorem not_coherent {s : Disk} {c : Content} (hkey : s.tree.get (keyPath root "x") = some (.file c))
    (hid : s.tree.get (idPath root "x") = none) : ¬ Coherent baseDigest root "a.b" s := by
  intro h
  have hlive := (h.live "x" isServiceName_x c hkey).1
  rw [hid] at hlive
  cases hlive

end Sample

theorem provisioning_coherent_sample :
    Coherent Sample.runtime.sha256 Sample.root "a.b" Sample.registered :=
  provisioning_coherent Sample.runtime Sample.supply Sample.root Sample.plain_root "a.b"
    ⟨by decide, List.all_eq_true.mp (by decide)⟩ Sample.emptyDisk Sample.initialised Sample.registered
    (fun name _ c => Sample.emptyDisk_keys name c) .typescript Sample.initialised_returns
    (.single ⟨.typescript, .addService "x", Sample.isServiceName_x, Sample.registered_returns,
      fun _ h => by cases h⟩)
    Sample.registered_kids

/-- `x/id` can be removed though it never was a service, and the `id` file of
`x` goes with it. -/
theorem remove_strips_id :
    Impl.typescript.Returns Sample.runtime Sample.supply Sample.root (.initRoot "a.b")
        Sample.emptyDisk Sample.initialised ∧
      Impl.typescript.Returns Sample.runtime Sample.supply Sample.root (.addService "x")
        Sample.initialised Sample.registered ∧
      IsServiceName "a.b" "x/id" ∧
      (∃ t, Impl.typescript.Returns Sample.runtime Sample.supply Sample.root
          (.removeService "x/id") Sample.registered t ∧
        ¬ Coherent Sample.baseDigest Sample.root "a.b" t) ∧
      ∃ t, Impl.go.Returns Sample.runtime Sample.supply Sample.root (.removeService "x/id")
          Sample.registered t ∧
        ¬ Coherent Sample.baseDigest Sample.root "a.b" t :=
  ⟨Sample.initialised_returns, Sample.registered_returns, ⟨⟨"a.b", "/x/id"⟩, rfl⟩,
    ⟨_, Sample.returns_after rfl, Sample.not_coherent rfl rfl⟩,
    ⟨_, rfl, Sample.not_coherent rfl rfl⟩⟩

end Spiffile
