import Spiffile.Lib.Cells
import Spiffile.Replacement

/-!
# Services apart from each other

Each service is a cell of its own: a key in use and the keys that are listed.
The disk stands for a table of such cells, and a call changes the cell of its
name, except where one name is a path into the directory of another.
-/

namespace Spiffile

open FileTree Cells

/-! ### A service by itself -/

inductive Update where
  | add
  | rotate (keepOld : Bool)
  | remove

def Update.call (name : String) : Update → Call
  | add => .addService name
  | rotate keepOld => .rotateService name keepOld
  | remove => .removeService name

/-- A call for one service, with the key that it generates if it does. -/
structure Event where
  impl : Impl
  update : Update
  name : String
  key : Point

/-- A service with a key, and the keys that are still listed behind it. -/
structure Service where
  current : Point
  older : List Point

namespace Service

def keys (v : Service) : List Point := v.current :: v.older

def jwks (sha256 : Hash) (v : Service) : List Json := v.keys.map fun p => .obj (p.jwk sha256)

end Service

/-- What an update makes of a service. -/
def Update.apply (sha256 : Hash) (key : Point) : Update → Option Service → Option Service
  | add, none => some ⟨key, []⟩
  | add, some v => some v
  | rotate _, none => none
  | rotate keepOld, some v =>
    some ⟨key, (if keepOld then v.keys else []).filter fun p => p.kid sha256 ≠ key.kid sha256⟩
  | remove, _ => none

/-- Only what is there can be rotated. -/
def Update.Admits : Update → Option Service → Prop
  | rotate _, v => v ≠ none
  | _, _ => True

/-! ### What the disk holds of it -/

section

variable (sha256 : Hash) (root : PathName) (td : String)

/-- The two files and the list of one service. -/
structure Holds (ids : Identities) (name : String) (s : Disk) (v : Option Service) : Prop where
  key : ∀ c, s.tree.get (keyPath root name) = some (.file c) ↔ ∃ w, v = some w ∧ c = .key w.current
  id : ∀ c, s.tree.get (idPath root name) = some (.file c) ↔
    v ≠ none ∧ c = .text (serviceId td name ++ "\n")
  list : readBack td ids (serviceId td name) = v.map (Service.jwks sha256)

/-- The disk holds each service of the table. -/
def Stands (T : String → Option Service) (s : Disk) : Prop :=
  ∃ ids, s.tree.get (bundlePath root) = some (.file (.json (document (.str td) ids))) ∧
    ∀ name, IsServiceName td name → Holds sha256 root td ids name s (T name)

end

section

variable {sha256 : Hash} {supply : ℕ → Point} {root : PathName} {td name : String} {ids ids' : Identities}
  {s t : Disk} {v : Option Service} {T : String → Option Service}

/-- What is read back and written again reads the same. -/
theorem readBack_of_lookup {id : String} (h : ids'.lookup id = readBack td ids id) :
    readBack td ids' id = readBack td ids id := by
  rw [readBack, h]
  unfold readBack
  by_cases hin : inTrustDomain td id = true
  · simp only [if_pos hin]
    cases ids.lookup id with
    | none => rfl
    | some keys => by_cases hkeys : keys = [] <;> simp [Option.filter, hkeys]
  · simp only [if_neg hin]

theorem readBack_insert {id : String} (hin : inTrustDomain td id = true) {keys : List Json}
    (hkeys : keys ≠ []) : readBack td (ids.insert id keys) id = some keys := by
  rw [readBack, if_pos hin, AList.lookup_insert]
  simp [Option.filter, hkeys]

/-- The files and the list are as they were. -/
theorem Holds.congr (h : Holds sha256 root td ids name s v)
    (hkey : ∀ c, t.tree.get (keyPath root name) = some (.file c) ↔
      s.tree.get (keyPath root name) = some (.file c))
    (hid : ∀ c, t.tree.get (idPath root name) = some (.file c) ↔
      s.tree.get (idPath root name) = some (.file c))
    (hlist : ids'.lookup (serviceId td name) = readBack td ids (serviceId td name)) :
    Holds sha256 root td ids' name t v where
  key c := (hkey c).trans (h.key c)
  id c := (hid c).trans (h.id c)
  list := (readBack_of_lookup hlist).trans h.list

/-- One cell is written, the others are kept. -/
theorem stands_update (hdoc : t.tree.get (bundlePath root) =
      some (.file (.json (document (.str td) ids'))))
    (hown : Holds sha256 root td ids' name t v)
    (hother : ∀ m, m ≠ name → IsServiceName td m → Holds sha256 root td ids' m t (T m)) :
    Stands sha256 root td (Function.update T name v) t := by
  refine ⟨ids', hdoc, fun m hm => ?_⟩
  by_cases he : m = name
  · subst he
    rwa [Function.update_self]
  · rw [Function.update_of_ne he]
    exact hother m he hm

variable (hdoc : s.tree.get (bundlePath root) = some (.file (.json (document (.str td) ids))))
  (hall : ∀ m, IsServiceName td m → Holds sha256 root td ids m s (T m))
  (hname : IsServiceName td name)

section

variable {ε τ κ : Type} {kit : Kit ε τ κ} (lawful : kit.Lawful sha256) (htd : IsTrustDomain td.toList)
  {b : Bundle τ} (hb : Reads kit root s b)

include lawful hdoc hb in
theorem readFrom_of_doc : ReadFrom kit td ids b := by
  obtain ⟨d, hd, hparse⟩ := hb
  rw [hdoc] at hd
  cases hd
  exact lawful.readFrom hparse

include lawful htd hdoc hall hname hb

theorem stands_added (ht : Added kit sha256 supply root b name s t) :
    Stands sha256 root td (Function.update T name (some ⟨supply s.generated, []⟩)) t := by
  have hfrom := readFrom_of_doc hdoc lawful hb
  obtain ⟨u, hgrown, hnodes⟩ := ht.nodes
  rw [hfrom.text, updated, hfrom.serialise] at hnodes
  have hkb := keyPath_ne_bundlePath root
  have hib := idPath_ne_bundlePath root
  have hik := idPath_ne_keyPath root
  have hnew : t.tree.get (bundlePath root) = some (.file (.json (document (.str td)
      (b.identities.insert (serviceId td name) [jwkAt sha256 supply s.generated])))) := by
    rw [hnodes, if_pos rfl]
  refine stands_update hnew ?_ fun m hm hmname => ?_
  · have hkey : t.tree.get (keyPath root name) = some (.file (.key (supply s.generated))) := by
      rw [hnodes, if_neg (hkb _), if_neg (hik _ _).symm, if_pos rfl]
    have hid : t.tree.get (idPath root name) = some (.file (.text (serviceId td name ++ "\n"))) := by
      rw [hnodes, if_neg (hib _), if_pos rfl]
    refine ⟨fun c => ?_, fun c => ?_, ?_⟩
    · rw [hkey]
      simp [eq_comm]
    · rw [hid]
      simp [eq_comm]
    · exact readBack_insert (inTrustDomain_serviceId htd hname) (List.cons_ne_nil _ _)
  · refine (hall m hmname).congr (fun c => ?_) (fun c => ?_) ?_
    · rw [hnodes, if_neg (hkb _), if_neg (hik _ _).symm,
        if_neg fun h => hm (keyPath_injective root h)]
      exact hgrown.file_iff _ _
    · rw [hnodes, if_neg (hib _), if_neg fun h => hm (idPath_injective root h), if_neg (hik _ _)]
      exact hgrown.file_iff _ _
    · rw [AList.lookup_insert_ne fun h => hm (serviceId_injective td h), hfrom.lookup]

theorem stands_renewed {keepOld : Bool} (ht : Renewed kit sha256 supply root b name keepOld s t) :
    T name ≠ none ∧ Stands sha256 root td (Function.update T name
      ((Update.rotate keepOld).apply sha256 (supply s.generated) (T name))) t := by
  have hfrom := readFrom_of_doc hdoc lawful hb
  obtain ⟨c, hc⟩ := ht.present
  obtain ⟨w, hw, -⟩ := ((hall name hname).key c).mp hc
  refine ⟨by simp [hw], ?_⟩
  obtain ⟨k, others, hk, hothers, hnodes⟩ := ht.nodes
  rw [hfrom.text, updated, hfrom.serialise] at hnodes
  rw [hfrom.text, hfrom.lookup, (hall name hname).list, hw] at hothers
  -- the list is one of derived keys, which every implementation carries over
  have hold : (if keepOld then ((some w).map (Service.jwks sha256)).getD [] else []) =
      (if keepOld then w.keys else []).map fun p => Json.obj (p.jwk sha256) := by
    cases keepOld <;> rfl
  obtain ⟨k', hk', -, hkept⟩ := lawful.publicJwk_ok (supply s.generated)
  cases hk.symm.trans hk'
  rw [hold, hkept] at hothers
  cases hothers
  have hkb := keyPath_ne_bundlePath root
  have hib := idPath_ne_bundlePath root
  have hik := idPath_ne_keyPath root
  rw [hw]
  refine stands_update (by rw [hnodes, if_pos rfl]) ?_ fun m hm hmname => ?_
  · have hkey : t.tree.get (keyPath root name) = some (.file (.key (supply s.generated))) := by
      rw [hnodes, if_neg (hkb _), if_pos rfl]
    refine ⟨fun c => ?_, fun c => ?_, ?_⟩
    · rw [hkey]
      simp [Update.apply, eq_comm]
    · rw [hnodes, if_neg (hib _), if_neg (hik _ _), (hall name hname).id, hw]
      simp [Update.apply]
    · exact readBack_insert (inTrustDomain_serviceId htd hname) (List.cons_ne_nil _ _)
  · refine (hall m hmname).congr (fun c => ?_) (fun c => ?_) ?_
    · rw [hnodes, if_neg (hkb _), if_neg fun h => hm (keyPath_injective root h)]
    · rw [hnodes, if_neg (hib _), if_neg (hik _ _)]
    · rw [AList.lookup_insert_ne fun h => hm (serviceId_injective td h), hfrom.lookup]

end

end

/-! ### Calls that return -/

section

variable (rt : Runtime) (root : PathName) (td : String)

/-- The call returns without an error. -/
def Event.Ran (e : Event) (s t : Disk) : Prop :=
  e.impl.Returns rt (fun _ => e.key) root (e.update.call e.name) s t

/-- A recursive removal takes no file of another service with it. -/
def Event.Spares (e : Event) (s : Disk) : Prop :=
  e.update = .remove → e.impl ≠ .python → ∀ m, m ≠ e.name → IsServiceName td m →
    ∀ q, q = keyPath root m ∨ q = idPath root m → serviceDir root e.name <+: q →
      ∀ c, s.tree.get q ≠ some (.file c)

/-- No directory stands where a service is to have its key. -/
def Event.HasRoom (e : Event) (s : Disk) : Prop :=
  e.update = .add → s.tree.get (keyPath root e.name) ≠ some .dir

/-- A call for an accepted name. -/
structure Event.Served (e : Event) (s t : Disk) : Prop where
  name_ok : IsServiceName td e.name
  ran : e.Ran rt root s t

/-- A call that finds no other service in its way, and is in the way of none. -/
structure Event.Apart (e : Event) (s t : Disk) : Prop extends e.Served rt root td s t where
  spares : e.Spares root td s
  room : e.HasRoom root s

end

section

variable {rt : Runtime} {root : PathName} (hroot : PlainPath root) {td : String}
  {T : String → Option Service} {s t : Disk}

section

variable {ids : Identities} {name : String} {impl : Impl} (hname : IsServiceName td name)
  (hend : impl.Ending rt root td ids name s true t)
  (hspares : impl ≠ .python → ∀ m, m ≠ name → IsServiceName td m →
    ∀ q, q = keyPath root m ∨ q = idPath root m → serviceDir root name <+: q →
      ∀ c, s.tree.get q ≠ some (.file c))

include hroot hname hend hspares

/-- Files of the others are where they were. -/
theorem Impl.Ending.other_file {m : String} (hne : m ≠ name) (hm : IsServiceName td m) {q : PathName}
    (hq : q = keyPath root m ∨ q = idPath root m) (c : Content) :
    t.tree.get q = some (.file c) ↔ s.tree.get q = some (.file c) := by
  have hplain := plain_of_isServiceName hname
  have htaken := hend.taken q
  have hbundle : q ≠ bundlePath root := by
    rcases hq with rfl | rfl
    · exact keyPath_ne_bundlePath root m
    · exact idPath_ne_bundlePath root m
  have hsame := hend.same hbundle
  rw [impl.join_service hroot rt hplain] at htaken hsame
  by_cases htakes : impl.Takes s.tree (serviceDir root name) q
  · rw [htaken htakes]
    refine iff_of_false (by simp) fun hfile => ?_
    have hpre := (htakes.below hroot hname).1
    cases impl with
    | python =>
      obtain ⟨d, hstat, htakes⟩ := htakes
      obtain ⟨rfl, hdir⟩ := Volume.stat_plain_eq_ok (plainPath_serviceDir hroot hplain) _ hstat
      rcases htakes with ⟨rfl, -⟩ | ⟨rfl, -⟩ | ⟨rfl, -⟩
      · rcases hq with hq | hq
        · exact idPath_ne_keyPath root name m hq
        · exact hne (idPath_injective root hq).symm
      · rcases hq with hq | hq
        · exact hne (keyPath_injective root hq).symm
        · exact idPath_ne_keyPath root m name hq.symm
      · rw [hdir] at hfile
        cases hfile
    | typescript => exact hspares (by simp) m hne hm q hq hpre c hfile
    | go => exact hspares (by simp) m hne hm q hq hpre c hfile
  · rw [hsame htakes]

theorem stands_removed (hall : ∀ m, IsServiceName td m → Holds rt.sha256 root td ids m s (T m)) :
    Stands rt.sha256 root td (Function.update T name none) t := by
  obtain ⟨ids', hlookup, hleft⟩ := hend.left
  have hkept := hleft (bundlePath root)
  rw [impl.join_service hroot rt (plain_of_isServiceName hname), if_pos rfl] at hkept
  refine stands_update (hkept (impl.not_takes_bundle hroot hname)) ?_ fun m hm hmname => ?_
  · refine ⟨fun c => ?_, fun c => ?_, ?_⟩
    · simpa using hend.key_gone hroot hname c
    · simpa using hend.id_gone hroot hname c
    · simp [readBack, hlookup]
  · apply (hall m hmname).congr
    · exact hend.other_file hroot hname hspares hm hmname (Or.inl rfl)
    · exact hend.other_file hroot hname hspares hm hmname (Or.inr rfl)
    · rw [hlookup, if_neg fun h => hm (serviceId_injective td h)]

end

/-! ### Each call changes its own cell -/

/-- The table after one call. -/
abbrev tableStep (sha256 : Hash) : Event → (String → Option Service) → String → Option Service :=
  updateAt Event.name fun e => e.update.apply sha256 e.key

variable (htd : IsTrustDomain td.toList)

include hroot htd

theorem Stands.performed {ε τ κ : Type} {kit : Kit ε τ κ} (lawful : kit.Lawful rt.sha256)
    {removeFiles : PathName → Prog Cmd Ans ε Unit} {e : Event} (hs : Stands rt.sha256 root td T s)
    (hname : IsServiceName td e.name) (hremove : e.update ≠ .remove) (hroom : e.HasRoom root s)
    (hret : (performWith kit removeFiles root (e.update.call e.name)).Returns
      (Disk.semantics fun _ => e.key) s () t) :
    e.update.Admits (T e.name) ∧ Stands rt.sha256 root td (tableStep rt.sha256 e T) t := by
  obtain ⟨ids, hdoc, hall⟩ := hs
  obtain ⟨impl, update, name, key⟩ := e
  cases update with
  | add =>
    refine ⟨trivial, ?_⟩
    obtain ⟨r, u, hadd, hpure⟩ := Prog.returns_bind.mp hret
    obtain ⟨-, rfl⟩ := Prog.returns_pure.mp hpure
    obtain ⟨b, hreads, -, ⟨⟨n, hn⟩, rfl⟩ | hadded⟩ := addService_returns hroot lawful hadd
    · cases n with
      | dir => exact absurd hn (hroom rfl)
      | file c =>
        obtain ⟨w, hw, -⟩ := ((hall name hname).key c).mp hn
        have hsame : tableStep rt.sha256 ⟨impl, .add, name, key⟩ T = T := by
          unfold tableStep updateAt
          dsimp only
          rw [hw, Update.apply, ← hw, Function.update_eq_self]
        rw [hsame]
        exact ⟨ids, hdoc, hall⟩
    · have hnone : T name = none := by
        cases hv : T name with
        | none => rfl
        | some w =>
          have hkey := ((hall name hname).key _).mpr ⟨w, hv, rfl⟩
          rw [hadded.fresh] at hkey
          cases hkey
      have hnew := stands_added hdoc hall hname lawful htd hreads hadded
      unfold tableStep updateAt
      dsimp only
      rw [hnone]
      exact hnew
  | rotate keepOld =>
    obtain ⟨r, u, hrotate, hpure⟩ := Prog.returns_bind.mp hret
    obtain ⟨-, rfl⟩ := Prog.returns_pure.mp hpure
    obtain ⟨b, hreads, -, hrenewed⟩ := rotateService_returns hroot lawful hrotate
    exact stands_renewed hdoc hall hname lawful htd hreads hrenewed
  | remove => exact absurd rfl hremove

theorem Stands.step {e : Event} (hs : Stands rt.sha256 root td T s) (h : e.Apart rt root td s t) :
    e.update.Admits (T e.name) ∧ Stands rt.sha256 root td (tableStep rt.sha256 e T) t := by
  obtain ⟨⟨hname, hran⟩, hspares, hroom⟩ := h
  by_cases hremove : e.update = .remove
  · obtain ⟨ids, hdoc, hall⟩ := hs
    obtain ⟨impl, update, name, key⟩ := e
    cases hremove
    obtain ⟨ok, u, hout, hend⟩ := impl.removeService_ending rt (fun _ => key) hroot hdoc name
    cases hran.outcome.symm.trans hout
    exact ⟨trivial, stands_removed hroot hname hend (hspares rfl) hall⟩
  · obtain ⟨impl, update, name, key⟩ := e
    cases impl with
    | python =>
      rw [Event.Ran, Impl.Returns, Py.perform_eq] at hran
      exact hs.performed hroot htd (Py.kit_lawful rt) hname hremove hroom hran
    | typescript =>
      rw [Event.Ran, Impl.Returns, Ts.perform_eq] at hran
      exact hs.performed hroot htd (Ts.kit_lawful rt) hname hremove hroom hran
    | go =>
      rw [Event.Ran, Impl.Returns, Go.perform_eq] at hran
      exact hs.performed hroot htd (Go.kit_lawful rt) hname hremove hroom hran

end

/-! ### A root with one service -/

/-- Below `services` there is nothing but this service. -/
def Only (root : PathName) (name : String) (s : Disk) : Prop :=
  ∀ q n, root ++ [servicesDirname] <+: q → s.tree.get q = some n →
    n = .dir ∧ q <+: serviceDir root name ∨
      (q = keyPath root name ∨ q = idPath root name) ∧ n ≠ .dir

theorem services_above (root : PathName) (name : String) :
    root ++ [servicesDirname] <+: serviceDir root name :=
  (List.prefix_append_right_inj root).mpr (List.cons_prefix_cons.mpr ⟨rfl, List.nil_prefix⟩)

theorem ne_bundle_of_services {root q : PathName} (h : root ++ [servicesDirname] <+: q) :
    q ≠ bundlePath root := by
  rintro rfl
  have hname := (List.cons_prefix_cons.mp ((List.prefix_append_right_inj root).mp h)).1
  exact absurd hname (by decide)

section

variable {sha256 : Hash} {root : PathName} {td name : String} {T : String → Option Service}
  {s t : Disk} (h : Only root name s)

include h

/-- Neither file of the service is a directory. -/
theorem Only.own_ne_dir {q : PathName} (hq : q = keyPath root name ∨ q = idPath root name) :
    s.tree.get q ≠ some .dir := by
  intro hdir
  have hbelow : serviceDir root name <+: q ∧ ¬ q <+: serviceDir root name := by
    rcases hq with rfl | rfl
    · exact ⟨List.prefix_append _ _, not_on_way_of_append⟩
    · exact ⟨List.prefix_append _ _, not_on_way_of_append⟩
  rcases h q .dir ((services_above root name).trans hbelow.1) hdir with ⟨-, hpre⟩ | ⟨-, hne⟩
  · exact hbelow.2 hpre
  · exact hne rfl

theorem Only.passable {d : Json} (hdoc : s.tree.get (bundlePath root) = some (.file (.json d))) :
    s.tree.Passable (serviceDir root name) := by
  intro q c hq hfile
  rcases List.prefix_or_prefix_of_prefix hq (services_above root name) with hup | hdown
  · -- on the way to the bundle, or `services` itself
    rcases List.prefix_concat_iff.mp hup with rfl | habove
    · rcases h _ _ (List.prefix_refl _) hfile with ⟨hn, -⟩ | ⟨hq | hq, -⟩
      · cases hn
      · have hlen := congrArg List.length hq
        simp [keyPath, serviceDir] at hlen
      · have hlen := congrArg List.length hq
        simp [idPath, serviceDir] at hlen
    · obtain ⟨rest, rfl⟩ := habove
      rw [bundlePath, List.append_assoc] at hdoc
      rw [s.tree.get_ancestor hdoc (by simp)] at hfile
      cases hfile
  · rcases h q _ hdown hfile with ⟨hn, -⟩ | ⟨rfl | rfl, -⟩
    · cases hn
    · exact not_on_way_of_append hq
    · exact not_on_way_of_append hq

theorem Only.spares {e : Event} (he : e.name = name) : e.Spares root td s := by
  intro _ _ m hm _ q hq hpre c hfile
  rw [he] at hm hpre
  rcases h q _ ((services_above root name).trans hpre) hfile with ⟨hn, -⟩ | ⟨hown, -⟩
  · cases hn
  · rcases hq with rfl | rfl
    · rcases hown with hown | hown
      · exact hm (keyPath_injective root hown)
      · exact idPath_ne_keyPath root name m hown.symm
    · rcases hown with hown | hown
      · exact idPath_ne_keyPath root m name hown
      · exact hm (idPath_injective root hown)

theorem Only.room {e : Event} (he : e.name = name) : e.HasRoom root s :=
  fun _ => he ▸ h.own_ne_dir (Or.inl rfl)

/-- The service's directory can be removed, whether it is there or not. -/
theorem Only.completes (hroot : PlainPath root) (hplain : PlainPath (splitSlash name)) (rt : Runtime)
    {d : Json} (hdoc : s.tree.get (bundlePath root) = some (.file (.json d))) (impl : Impl) :
    impl.Completes rt s.tree (serviceDir root name) := by
  have hdirPlain := plainPath_serviceDir hroot hplain
  have hnil : serviceDir root name ≠ [] := by simp [serviceDir]
  cases hget : s.tree.get (serviceDir root name) with
  | none => exact Or.inl (Volume.stat_passable_none hdirPlain (h.passable hdoc) hget)
  | some n =>
    have hdir : n = .dir := by
      rcases h _ n (services_above root name) hget with ⟨hn, -⟩ | ⟨hq | hq, -⟩
      · exact hn
      · have hlen := congrArg List.length hq
        simp [keyPath] at hlen
      · have hlen := congrArg List.length hq
        simp [idPath] at hlen
    subst hdir
    have hstat := Volume.stat_plain_some hdirPlain s.tree hget
    cases impl with
    | python =>
      refine Or.inr ⟨_, hstat, hnil, h.own_ne_dir (Or.inr rfl), h.own_ne_dir (Or.inl rfl),
        fun q hq hqid hqkey => ?_⟩
      cases hbelow : s.tree.get (serviceDir root name ++ q) with
      | none => rfl
      | some n =>
        rcases h _ n ((services_above root name).trans (List.prefix_append _ _)) hbelow with
          ⟨-, hpre⟩ | ⟨heq | heq, -⟩
        · have hlen := hpre.length_le
          rw [List.length_append] at hlen
          exact absurd (List.length_eq_zero_iff.mp (by omega)) hq
        · exact absurd (List.append_cancel_left heq) hqkey
        · exact absurd (List.append_cancel_left heq) hqid
    | typescript => exact Or.inr (Or.inr ⟨_, _, hstat, hnil⟩)
    | go => exact Or.inr (Or.inr ⟨_, _, hstat, hnil⟩)

theorem Only.added {ε τ κ : Type} {kit : Kit ε τ κ} {supply : ℕ → Point} {b : Bundle τ}
    (ht : Added kit sha256 supply root b name s t) : Only root name t := by
  obtain ⟨u, hgrown, hnodes⟩ := ht.nodes
  intro q n hq hget
  rw [hnodes, if_neg (ne_bundle_of_services hq)] at hget
  split_ifs at hget with hid hkey
  · cases hget
    exact Or.inr ⟨Or.inr hid, by simp⟩
  · cases hget
    exact Or.inr ⟨Or.inl hkey, by simp⟩
  · rcases hgrown q with hsame | ⟨-, hdir, hpre⟩
    · exact h q n hq (hsame ▸ hget)
    · rw [hdir] at hget
      cases hget
      exact Or.inl ⟨rfl, hpre⟩

theorem Only.renewed {ε τ κ : Type} {kit : Kit ε τ κ} {supply : ℕ → Point} {b : Bundle τ}
    {keepOld : Bool} (ht : Renewed kit sha256 supply root b name keepOld s t) : Only root name t := by
  obtain ⟨k, others, -, -, hnodes⟩ := ht.nodes
  intro q n hq hget
  rw [hnodes, if_neg (ne_bundle_of_services hq)] at hget
  split_ifs at hget with hkey
  · cases hget
    exact Or.inr ⟨Or.inl hkey, by simp⟩
  · exact h q n hq hget

theorem Only.removed {rt : Runtime} {ids : Identities} {impl : Impl} {ok : Bool}
    (hend : impl.Ending rt root td ids name s ok t) : Only root name t := by
  intro q n hq hget
  refine h q n hq ?_
  rwa [← hend.same (ne_bundle_of_services hq) fun htakes => ?_]
  rw [hend.taken q htakes] at hget
  cases hget

end

/-! ### The calls of one service go through -/

section

variable {rt : Runtime} {supply : ℕ → Point} {root : PathName} (hroot : PlainPath root) {td name : String}
  {T : String → Option Service} {s t : Disk}

theorem Impl.returns_of_outcome {call : Call} {impl : Impl}
    (h : impl.outcome rt supply root call s = (true, t)) : impl.Returns rt supply root call s t := by
  have hrun : ∀ {ε : Type} (p : Prog Cmd Ans ε Unit),
      ((p.run (Disk.semantics supply) s).1.isOk, (p.run (Disk.semantics supply) s).2) = (true, t) →
      p.Returns (Disk.semantics supply) s () t := by
    intro ε p hp
    obtain ⟨hok, ht⟩ := Prod.ext_iff.mp hp
    obtain ⟨u, hu⟩ := exists_of_isOk hok
    exact Prod.ext hu ht
  cases impl with
  | python => exact hrun _ h
  | typescript => exact hrun _ h
  | go => exact hrun _ h

variable (hs : Stands rt.sha256 root td T s) (honly : Only root name s)
  (hname : IsServiceName td name)

include hroot hs honly hname

theorem Only.performed (supply : ℕ → Point) {ε τ κ : Type} {kit : Kit ε τ κ}
    (lawful : kit.Lawful rt.sha256) (removeFiles : PathName → Prog Cmd Ans ε Unit)
    {update : Update} (hremove : update ≠ .remove) (hadmits : update.Admits (T name)) :
    ∃ t, (performWith kit removeFiles root (update.call name)).Returns (Disk.semantics supply) s () t ∧
      Only root name t := by
  obtain ⟨ids, hdoc, hall⟩ := hs
  cases update with
  | add =>
    have hadd : ∃ r t, (addServiceWith kit root name).Returns (Disk.semantics supply) s r t := by
      cases hv : T name with
      | some w =>
        have hkey := ((hall name hname).key _).mpr ⟨w, hv, rfl⟩
        obtain ⟨r, hr⟩ := addService_kept hroot lawful hdoc hname hkey
        exact ⟨r, s, hr⟩
      | none =>
        have hkey : s.tree.get (keyPath root name) = none := by
          rcases hget : s.tree.get (keyPath root name) with - | n
          · rfl
          cases n with
          | dir => exact absurd hget (honly.own_ne_dir (Or.inl rfl))
          | file c =>
            obtain ⟨w, hw, -⟩ := ((hall name hname).key c).mp hget
            rw [hv] at hw
            cases hw
        have hid := honly.own_ne_dir (Or.inr rfl)
        obtain ⟨u, td', ids', r, -, -, hr⟩ := addService_endsInWrite hroot lawful hdoc hname hkey hid
          (honly.passable hdoc)
        exact ⟨r, _, hr⟩
    obtain ⟨r, t, hr⟩ := hadd
    refine ⟨t, Prog.returns_bind.mpr ⟨r, t, hr, Prog.returns_pure.mpr ⟨rfl, rfl⟩⟩, ?_⟩
    obtain ⟨b, -, -, ⟨-, rfl⟩ | hadded⟩ := addService_returns hroot lawful hr
    · exact honly
    · exact honly.added hadded
  | rotate keepOld =>
    obtain ⟨w, hw⟩ := Option.ne_none_iff_exists'.mp hadmits
    have hkey := ((hall name hname).key _).mpr ⟨w, hw, rfl⟩
    have hlist := (hall name hname).list
    rw [hw, Option.map_some] at hlist
    have hold : ∀ keys, ids.lookup (serviceId td name) = some keys →
        ∃ qs : List Point, keys = qs.map fun q => .obj (q.jwk rt.sha256) := by
      intro keys hkeys
      rw [(lookup_of_readBack hlist).1] at hkeys
      exact ⟨w.keys, (Option.some.inj hkeys).symm⟩
    have hends : EndsInWrite supply root (rotateServiceWith kit root name keepOld) s :=
      rotateService_endsInWrite hroot lawful hdoc hname hkey hold keepOld
    obtain ⟨u, td', ids', r, -, -, hr⟩ := hends
    refine ⟨_, Prog.returns_bind.mpr ⟨r, _, hr, Prog.returns_pure.mpr ⟨rfl, rfl⟩⟩, ?_⟩
    obtain ⟨b, -, -, hrenewed⟩ := rotateService_returns hroot lawful hr
    exact honly.renewed hrenewed
  | remove => exact absurd rfl hremove

/-- Nothing but the calls themselves can stop them. -/
theorem Only.goes_through {e : Event} (he : e.name = name) (hadmits : e.update.Admits (T name)) :
    ∃ t, e.Ran rt root s t ∧ Only root name t := by
  obtain ⟨impl, update, name', key⟩ := e
  cases he
  by_cases hremove : update = .remove
  · subst hremove
    obtain ⟨ids, hdoc, -⟩ := hs
    obtain ⟨ok, t, hout, hend⟩ := impl.removeService_ending rt (fun _ => key) hroot hdoc name'
    have hplain := plain_of_isServiceName hname
    have hok : ok = true := by
      rw [hend.ok_iff, impl.join_service hroot rt hplain]
      exact honly.completes hroot hplain rt hdoc impl
    rw [hok] at hout
    exact ⟨t, Impl.returns_of_outcome hout, honly.removed hend⟩
  · cases impl with
    | python =>
      have h := honly.performed hroot hs hname (fun _ => key) (Py.kit_lawful rt)
        Py.removeFiles hremove hadmits
      rw [← Py.perform_eq] at h
      exact h
    | typescript =>
      have h := honly.performed hroot hs hname (fun _ => key) (Ts.kit_lawful rt)
        (Ts.removeFiles rt) hremove hadmits
      rw [← Ts.perform_eq] at h
      exact h
    | go =>
      have h := honly.performed hroot hs hname (fun _ => key) (Go.kit_lawful rt)
        Go.removeFiles hremove hadmits
      rw [← Go.perform_eq] at h
      exact h

end

/-! ### After `init` -/

section

variable {ε τ κ : Type} {kit : Kit ε τ κ} {sha256 : Hash} {root : PathName} {td : String} {s t : Disk}
  (h : Initialised kit root td s t)
  (hempty : ∀ q, q ≠ [] → s.tree.get (root ++ servicesDirname :: q) = none)

include h hempty

theorem Initialised.stands (lawful : kit.Lawful sha256) : Stands sha256 root td (fun _ => none) t := by
  obtain ⟨u, hgrown, hnodes⟩ := h.nodes
  have hnone : ∀ name file c, s.tree.get (serviceDir root name ++ [file]) ≠ some (.file c) := by
    intro name file c hfile
    rw [serviceDir, List.append_assoc, List.cons_append, hempty _ (by simp)] at hfile
    cases hfile
  refine ⟨∅, by rw [hnodes, if_pos rfl, lawful.serialise_init], fun name _ => ?_⟩
  refine ⟨fun c => ?_, fun c => ?_, by simp [readBack]⟩
  · rw [hnodes, if_neg (keyPath_ne_bundlePath root name), hgrown.file_iff]
    simpa [keyPath] using hnone name keyFilename c
  · rw [hnodes, if_neg (idPath_ne_bundlePath root name), hgrown.file_iff]
    simpa [idPath] using hnone name idFilename c

theorem Initialised.only (hpass : s.tree.Passable (root ++ [servicesDirname])) (name : String) :
    Only root name t := by
  obtain ⟨u, hgrown, hnodes⟩ := h.nodes
  intro q n hq hget
  rw [hnodes, if_neg (ne_bundle_of_services hq)] at hget
  rcases hgrown q with hsame | ⟨-, hdir, hpre⟩
  · rw [hsame] at hget
    obtain ⟨rest, rfl⟩ := hq
    rw [List.append_assoc, List.singleton_append] at hget
    by_cases hrest : rest = []
    · subst hrest
      cases n with
      | dir => exact Or.inl ⟨rfl, by simpa using services_above root name⟩
      | file c => exact absurd hget (hpass _ c (List.prefix_refl _))
    · rw [hempty rest hrest] at hget
      cases hget
  · rw [hdir] at hget
    cases hget
    exact Or.inl ⟨rfl, hpre.trans (services_above root name)⟩

end

section

variable {rt : Runtime} {supply : ℕ → Point} {root : PathName} (hroot : PlainPath root) {td : String}
  {s t : Disk}

include hroot

theorem Impl.Returns.startsAlone (hempty : ∀ q, q ≠ [] → s.tree.get (root ++ servicesDirname :: q) = none)
    {impl : Impl} (hret : impl.Returns rt supply root (.initRoot td) s t) :
    Stands rt.sha256 root td (fun _ => none) t ∧ ∀ name, Only root name t := by
  have hinit : ∀ {ε τ κ : Type} {kit : Kit ε τ κ}, kit.Lawful rt.sha256 →
      (initRootWith kit root td).Returns (Disk.semantics supply) s () t →
      Stands rt.sha256 root td (fun _ => none) t ∧ ∀ name, Only root name t := by
    intro ε τ κ kit lawful h
    have hini := initRoot_returns hroot lawful h
    have hstands := hini.stands hempty lawful
    obtain ⟨ids, hdoc, -⟩ := hstands
    have hvisits : impl.Visits rt supply root (.initRoot td) s t := by
      cases impl with
      | python => exact Prog.Returns.visits hret
      | typescript => exact Prog.Returns.visits hret
      | go => exact Prog.Returns.visits hret
    rcases Impl.sameBundle_or_writes hroot (Sound.fresh hini.fresh) hvisits with hsame | ⟨-, hpass⟩
    · rw [SameBundle, hini.fresh, hdoc] at hsame
      cases hsame
    · exact ⟨hini.stands hempty lawful, hini.only hempty hpass⟩
  cases impl with
  | python => exact hinit (Py.kit_lawful rt) hret
  | typescript => exact hinit (Ts.kit_lawful rt) hret
  | go => exact hinit (Go.kit_lawful rt) hret

end

/-! ### Isolation -/

section

variable (rt : Runtime) (root : PathName) (td : String)

/-- A service has the same files and, for every reader, the same list. -/
structure Alike (name : String) (s t : Disk) : Prop where
  key : ∀ c, s.tree.get (keyPath root name) = some (.file c) ↔
    t.tree.get (keyPath root name) = some (.file c)
  id : ∀ c, s.tree.get (idPath root name) = some (.file c) ↔
    t.tree.get (idPath root name) = some (.file c)
  list : ∀ reader : Impl, reader.bound (bundleFile root s) (serviceId td name) =
    reader.bound (bundleFile root t) (serviceId td name)

/-- The service has a key, and every reader finds it listed. -/
def InService (name : String) (s : Disk) : Prop :=
  ∃ p, s.tree.get (keyPath root name) = some (.file (.key p)) ∧ ∀ reader : Impl, ∃ rest,
    reader.bound (bundleFile root s) (serviceId td name) = some (.obj (p.jwk rt.sha256) :: rest)

/-- After the calls `es`, each service is as if only the calls for it had been
made, and one that was added last is there. -/
structure Isolated (s : Disk) (es : List Event) (t : Disk) : Prop where
  alone : ∀ name, IsServiceName td name →
    ∃ v, Trace (Event.Ran rt root) (es.filter fun e => e.name = name) s v ∧ Alike root td name t v
  added : ∀ es' e, es = es' ++ [e] → e.update = .add → InService rt root td e.name t

end

section

variable {rt : Runtime} {root : PathName} (hroot : PlainPath root) {td name : String} {s t : Disk}
  {T T' : String → Option Service}

include hroot

theorem Stands.bound (hs : Stands rt.sha256 root td T s) (hname : IsServiceName td name) (reader : Impl) :
    reader.bound (bundleFile root s) (serviceId td name) =
      (T name).map (Service.jwks rt.sha256) := by
  obtain ⟨ids, hdoc, hall⟩ := hs
  rw [bundleFile_of_get hroot hdoc, bound_document]
  exact (hall name hname).list

/-- A cell says all there is about a service. -/
theorem Stands.alike (hs : Stands rt.sha256 root td T s) (ht : Stands rt.sha256 root td T' t)
    (hname : IsServiceName td name) (hsame : T name = T' name) : Alike root td name s t := by
  have hlist : ∀ reader : Impl, reader.bound (bundleFile root s) (serviceId td name) =
      reader.bound (bundleFile root t) (serviceId td name) := fun reader => by
    rw [hs.bound hroot hname, ht.bound hroot hname, hsame]
  obtain ⟨ids, -, hall⟩ := hs
  obtain ⟨ids', -, hall'⟩ := ht
  refine ⟨fun c => ?_, fun c => ?_, hlist⟩
  · rw [(hall name hname).key, (hall' name hname).key, hsame]
  · rw [(hall name hname).id, (hall' name hname).id, hsame]

theorem Stands.inService (hs : Stands rt.sha256 root td T s) (hname : IsServiceName td name)
    {w : Service} (hw : T name = some w) : InService rt root td name s := by
  have hbound := hs.bound hroot hname
  obtain ⟨ids, -, hall⟩ := hs
  refine ⟨w.current, ((hall name hname).key _).mpr ⟨w, hw, rfl⟩, fun reader => ?_⟩
  exact ⟨w.older.map fun p => .obj (p.jwk rt.sha256), by rw [hbound, hw]; rfl⟩

omit hroot in
theorem Event.Ran.unique {e : Event} {t' : Disk} (h : e.Ran rt root s t) (h' : e.Ran rt root s t') :
    t = t' := by
  have hout := h.outcome.symm.trans h'.outcome
  exact (Prod.ext_iff.mp hout).2

omit hroot in
/-- Two orders of calls that are the same for a service leave it the same. -/
theorem Isolated.commute {es es' : List Event} {t' : Disk} (h : Isolated rt root td s es t)
    (h' : Isolated rt root td s es' t') (hname : IsServiceName td name)
    (hsame : (es.filter fun e => e.name = name) = es'.filter fun e => e.name = name) :
    Alike root td name t t' := by
  obtain ⟨v, hv, halike⟩ := h.alone name hname
  obtain ⟨v', hv', halike'⟩ := h'.alone name hname
  rw [hsame] at hv
  cases Trace.unique (R := Event.Ran rt root) (fun _ _ _ _ h1 h2 => h1.unique h2) hv hv'
  exact ⟨fun c => (halike.key c).trans (halike'.key c).symm,
    fun c => (halike.id c).trans (halike'.id c).symm,
    fun reader => (halike.list reader).trans (halike'.list reader).symm⟩

end

/-- What the steps give, one after the other. -/
theorem isolated_of_run {rt : Runtime} {root : PathName} (hroot : PlainPath root) {td : String}
    (htd : IsTrustDomain td.toList) {s t : Disk} {es : List Event}
    (hstart : Stands rt.sha256 root td (fun _ => none) s) (honly : ∀ name, Only root name s)
    (hrun : Trace (Event.Apart rt root td) es s t) : Isolated rt root td s es t := by
  have hstep : ∀ T e s t, Stands rt.sha256 root td T s → e.Apart rt root td s t →
      Stands rt.sha256 root td (tableStep rt.sha256 e T) t :=
    fun _ _ _ _ hs h => (hs.step hroot htd h).2
  have hend := hrun.follows hstep hstart
  refine ⟨fun name hname => ?_, fun es' e he hadd => ?_⟩
  · have halone : ∀ T e s, e.name = name → Stands rt.sha256 root td T s ∧ Only root name s →
        e.update.Admits (T name) → ∃ t, e.Ran rt root s t ∧
          Stands rt.sha256 root td (tableStep rt.sha256 e T) t ∧ Only root name t := by
      rintro T e s he ⟨hs, honly⟩ hadmits
      obtain ⟨t, hran, honly'⟩ := honly.goes_through hroot hs hname he hadmits
      have hapart : e.Apart rt root td s t := ⟨⟨he ▸ hname, hran⟩, honly.spares he, honly.room he⟩
      exact ⟨t, hran, hstep T e s t hs hapart, honly'⟩
    obtain ⟨v, hv, hstands, -⟩ := hrun.project name (fun _ _ _ _ hs h => hs.step hroot htd h) halone
      hstart ⟨hstart, honly name⟩ rfl
    exact ⟨v, hv, hend.alike hroot hstands hname (after_filter _ _ es _ name).symm⟩
  · subst he
    obtain ⟨u, hbefore, hlast⟩ := trace_concat_iff.mp hrun
    obtain ⟨T, hT⟩ : ∃ T, Stands rt.sha256 root td T u := ⟨_, hbefore.follows hstep hstart⟩
    -- whether it was there before or not
    have hthere : ∃ w, Update.add.apply rt.sha256 e.key (T e.name) = some w := by
      cases T e.name with
      | none => exact ⟨_, rfl⟩
      | some w => exact ⟨w, rfl⟩
    obtain ⟨w, hw⟩ := hthere
    refine (hstep T e u t hT hlast).inService hroot hlast.name_ok (w := w) ?_
    rw [tableStep, updateAt, Function.update_self, hadd, hw]

/-- Whatever calls return on a fresh root, the services are isolated and the
order of calls for different ones does not matter, as long as no recursive
removal meets a file of another service and no new service finds a directory in
the place of its key. -/
theorem services_isolated (rt : Runtime) (supply : ℕ → Point) (root : PathName) (hroot : PlainPath root)
    (td : String) (htd : IsTrustDomain td.toList) (s₀ s₁ s₂ : Disk)
    (hempty : ∀ q, q ≠ [] → s₀.tree.get (root ++ servicesDirname :: q) = none) (impl : Impl)
    (hinit : impl.Returns rt supply root (.initRoot td) s₀ s₁) (es : List Event)
    (hrun : Trace (Event.Apart rt root td) es s₁ s₂) :
    Isolated rt root td s₁ es s₂ ∧
      ∀ es' t, Trace (Event.Apart rt root td) es' s₁ t → ∀ name, IsServiceName td name →
        (es.filter fun e => e.name = name) = (es'.filter fun e => e.name = name) →
          Alike root td name s₂ t := by
  obtain ⟨hstart, honly⟩ := hinit.startsAlone hroot hempty
  have hisolated := isolated_of_run hroot htd hstart honly hrun
  refine ⟨hisolated, fun es' t hrun' name hname hsame => ?_⟩
  exact hisolated.commute (isolated_of_run hroot htd hstart honly hrun') hname hsame

/-! ### Names inside a directory of another service -/

section

variable {rt : Runtime} {supply : ℕ → Point} {root : PathName} (hroot : PlainPath root) {td name : String}
  {s : Disk}

include hroot

/-- Whatever is at the path of the key passes for one. -/
theorem Impl.addService_kept {T : String → Option Service} (hs : Stands rt.sha256 root td T s)
    (hname : IsServiceName td name) {n : Node Content} (hkey : s.tree.get (keyPath root name) = some n)
    (impl : Impl) : impl.Returns rt supply root (.addService name) s s := by
  obtain ⟨ids, hdoc, -⟩ := hs
  have hkept : ∀ {ε τ κ : Type} {kit : Kit ε τ κ}, kit.Lawful rt.sha256 →
      (discard (addServiceWith kit root name)).Returns (Disk.semantics supply) s () s := by
    intro ε τ κ kit lawful
    obtain ⟨r, hr⟩ := Spiffile.addService_kept hroot lawful hdoc hname hkey
    exact Prog.returns_bind.mpr ⟨r, s, hr, Prog.returns_pure.mpr ⟨rfl, rfl⟩⟩
  cases impl with
  | python => exact hkept (Py.kit_lawful rt)
  | typescript => exact hkept (Ts.kit_lawful rt)
  | go => exact hkept (Go.kit_lawful rt)

end

namespace Sample

theorem isServiceName_xy : IsServiceName "a.b" "x/y" := ⟨⟨"a.b", "/x/y"⟩, rfl⟩

theorem isServiceName_xKey : IsServiceName "a.b" "x/key.pem" := ⟨⟨"a.b", "/x/key.pem"⟩, rfl⟩

theorem isTrustDomain_ab : IsTrustDomain "a.b".toList := ⟨by decide, List.all_eq_true.mp (by decide)⟩

theorem emptyDisk_services (q : PathName) :
    emptyDisk.tree.get (root ++ servicesDirname :: q) = none := by
  cases hget : emptyDisk.tree.get (root ++ servicesDirname :: q) with
  | none => rfl
  | some n =>
    have hmem := AList.mem_lookup_iff.mp hget
    simp [emptyDisk, emptyVolume] at hmem

/-- A call with the key `basePoint`. -/
def event (impl : Impl) (update : Update) (name : String) : Event := ⟨impl, update, name, basePoint⟩

def behind (e : Event) (s : Disk) : Disk :=
  (e.impl.outcome runtime (fun _ => e.key) root (e.update.call e.name) s).2

theorem served_behind {e : Event} {s : Disk} (hname : IsServiceName "a.b" e.name)
    (hok : (e.impl.outcome runtime (fun _ => e.key) root (e.update.call e.name) s).1 = true) :
    e.Served runtime root "a.b" s (behind e s) :=
  ⟨hname, Impl.returns_of_outcome (Prod.ext hok rfl)⟩

theorem room_initialised : (event .typescript .add "x").HasRoom root initialised := by
  intro _ hdir
  have hnone : initialised.tree.get (keyPath root "x") = none := rfl
  rw [show (event .typescript .add "x").name = "x" from rfl, hnone] at hdir
  cases hdir

/-- Of `x/key.pem` and `x`, the second gets no key, in any language. -/
theorem key_shadowed (impl : Impl) :
    ∃ t, Trace (Event.Served runtime root "a.b")
        [event impl .add "x/key.pem", event impl .add "x"] initialised t ∧
      ¬ Isolated runtime root "a.b" initialised
        [event impl .add "x/key.pem", event impl .add "x"] t := by
  obtain ⟨hstart, honly⟩ := Impl.Returns.startsAlone plain_root
    (fun q _ => emptyDisk_services q) initialised_returns
  obtain ⟨t, hran, honly'⟩ := (honly "x/key.pem").goes_through plain_root hstart isServiceName_xKey
    (e := event impl .add "x/key.pem") rfl trivial
  have hserved : (event impl .add "x/key.pem").Served runtime root "a.b" initialised t :=
    ⟨isServiceName_xKey, hran⟩
  have hapart : (event impl .add "x/key.pem").Apart runtime root "a.b" initialised t :=
    ⟨hserved, (honly "x/key.pem").spares rfl, (honly "x/key.pem").room rfl⟩
  have hstands := (hstart.step plain_root isTrustDomain_ab hapart).2
  -- the directory of the first is where the key of the second should be
  obtain ⟨c, hc⟩ : ∃ c, t.tree.get (keyPath root "x/key.pem") = some (.file c) := by
    obtain ⟨p, hp, -⟩ := hstands.inService plain_root isServiceName_xKey (Function.update_self _ _ _)
    exact ⟨_, hp⟩
  have hdir : t.tree.get (keyPath root "x") = some .dir := t.tree.get_parent hc
  refine ⟨t, .cons hserved (.single ⟨isServiceName_x, ?_⟩), fun h => ?_⟩
  · exact Impl.addService_kept plain_root hstands isServiceName_x hdir impl
  · obtain ⟨p, hp, -⟩ := h.added [event impl .add "x/key.pem"] _ rfl rfl
    rw [show (event impl .add "x").name = "x" from rfl, hdir] at hp
    cases hp

/-- The calls of which the last removes `x` and the files of `x/y` with it. -/
def removal (impl : Impl) : List Event :=
  [event impl .add "x", event impl .add "x/y", event impl .remove "x"]

/-- By itself `x/y` would have its key. -/
theorem not_isolated {impl : Impl} {t : Disk} {c : Content}
    (hok : (impl.outcome runtime (fun _ => basePoint) root (.addService "x/y") initialised).1 = true)
    (hthere : (behind (event impl .add "x/y") initialised).tree.get (keyPath root "x/y") =
      some (.file c))
    (hgone : t.tree.get (keyPath root "x/y") = none) :
    ¬ Isolated runtime root "a.b" initialised (removal impl) t := by
  intro h
  obtain ⟨v, hv, halike⟩ := h.alone "x/y" isServiceName_xy
  have hfilter : ((removal impl).filter fun e => e.name = "x/y") = [event impl .add "x/y"] := rfl
  have hfirst := (served_behind (e := event impl .add "x/y") isServiceName_xy hok).ran
  rw [hfilter] at hv
  cases Trace.unique (R := Event.Ran runtime root) (fun _ _ _ _ h1 h2 => h1.unique h2) (.single hfirst) hv
  have hkey := (halike.key c).mpr hthere
  rw [hgone] at hkey
  cases hkey

end Sample

theorem services_isolated_sample :
    Isolated Sample.runtime Sample.root "a.b" Sample.initialised [Sample.event .typescript .add "x"]
        (Sample.behind (Sample.event .typescript .add "x") Sample.initialised) ∧
      ∀ es' t, Trace (Event.Apart Sample.runtime Sample.root "a.b") es' Sample.initialised t →
        ∀ name, IsServiceName "a.b" name →
          ([Sample.event .typescript .add "x"].filter fun e => e.name = name) =
            (es'.filter fun e => e.name = name) →
          Alike Sample.root "a.b" name
            (Sample.behind (Sample.event .typescript .add "x") Sample.initialised) t :=
  services_isolated Sample.runtime Sample.supply Sample.root Sample.plain_root "a.b"
    Sample.isTrustDomain_ab Sample.emptyDisk Sample.initialised _
    (fun q _ => Sample.emptyDisk_services q) .typescript Sample.initialised_returns _
    (.single ⟨Sample.served_behind Sample.isServiceName_x rfl, (fun h => by cases h),
      Sample.room_initialised⟩)

/-- A recursive removal of `x` takes the files of `x/y`, which stays bound; and
a service `x/key.pem` keeps `x` from getting a key. -/
theorem services_interfere :
    (∃ t, Trace (Event.Served Sample.runtime Sample.root "a.b") (Sample.removal .typescript)
        Sample.initialised t ∧
      ¬ Isolated Sample.runtime Sample.root "a.b" Sample.initialised (Sample.removal .typescript) t) ∧
    (∃ t, Trace (Event.Served Sample.runtime Sample.root "a.b") (Sample.removal .go)
        Sample.initialised t ∧
      ¬ Isolated Sample.runtime Sample.root "a.b" Sample.initialised (Sample.removal .go) t) ∧
    ∀ impl : Impl, ∃ t, Trace (Event.Served Sample.runtime Sample.root "a.b")
        [Sample.event impl .add "x/key.pem", Sample.event impl .add "x"] Sample.initialised t ∧
      ¬ Isolated Sample.runtime Sample.root "a.b" Sample.initialised
        [Sample.event impl .add "x/key.pem", Sample.event impl .add "x"] t :=
  ⟨⟨_, .cons (Sample.served_behind Sample.isServiceName_x rfl)
      (.cons (Sample.served_behind Sample.isServiceName_xy rfl)
        (.single (Sample.served_behind Sample.isServiceName_x rfl))),
      Sample.not_isolated rfl rfl rfl⟩,
    ⟨_, .cons (Sample.served_behind Sample.isServiceName_x rfl)
      (.cons (Sample.served_behind Sample.isServiceName_xy rfl)
        (.single (Sample.served_behind Sample.isServiceName_x rfl))),
      Sample.not_isolated rfl rfl rfl⟩,
    Sample.key_shadowed⟩

end Spiffile
