import Spiffile.Framing
import Spiffile.Replacement

/-!
# What an added service gets

`init_root` writes the trust domain it is given, whatever it is. `add_service`
pastes it in front of the name and parses the result, and the readers compare
the domain they parse with the one that is written. The three are one exactly
if the text has no slash.
-/

namespace Spiffile

open FileTree

section

variable (rt : Runtime) (supply : ℕ → Point) (root : PathName)

/-- `add_service` returns the ID. -/
def Impl.Adds (name : String) (id : SpiffeId) (s t : Disk) : Impl → Prop
  | python => (Py.addService rt root name).Returns (Disk.semantics supply) s id t
  | typescript => (Ts.addService rt root name).Returns (Disk.semantics supply) s id t
  | go => (Go.addService rt root name).Returns (Disk.semantics supply) s id t

/-- A call for another name runs to its end, returning or not, and the path it
removes is not the bundle's nor one above it. -/
def CallBeside (name : String) (s t : Disk) : Prop :=
  ∃ (impl : Impl) (call : Call) (m : String), m ≠ name ∧ call.On m ∧
    (call = .removeService m →
      ¬ impl.Takes s.tree (impl.join root [servicesDirname, m]) (bundlePath root)) ∧
    t = (impl.outcome rt supply root call s).2

/-- Nothing is below the root. -/
def FreshRoot (s : Disk) : Prop := ∀ q, q ≠ [] → s.tree.get (root ++ q) = none

/-- The ID is of the bundle's trust domain, and every reader finds the key of
the service under it, now and behind any calls for other names. -/
structure Visible (name : String) (id : SpiffeId) (s : Disk) : Prop where
  domain : ∀ reader : Impl, reader.domain (bundleFile root s) = some id.trustDomain
  bound : ∃ p, s.tree.get (keyPath root name) = some (.file (.key p)) ∧
    ∀ t, Relation.ReflTransGen (CallBeside rt supply root name) s t →
      ∀ reader : Impl, ∃ keys, reader.bound (bundleFile root t) id.toString = some keys ∧
        .obj (p.jwk rt.sha256) ∈ keys

end

/-! ### The trust domain -/

/-- The parser cuts the pasted text where the trust domain ends, unless there is
a slash before. -/
theorem trustDomain_iff {td name : String} {id : SpiffeId}
    (h : Go.parseSpiffeID (serviceId td name) = .ok id) :
    id.trustDomain = td ↔ '/' ∉ td.toList := by
  obtain ⟨n, hparse, hsplit⟩ := splitOn_of_isServiceName ⟨id, h⟩
  cases h.symm.trans hparse
  have hdomain : '/' ∉ n.domain :=
    fun hm => isTrustDomainChar_ne_slash '/' (n.domain_ok.2 '/' hm) rfl
  constructor
  · intro he
    have hchars : td.toList = n.domain := by
      rw [← he, SpiffeName.toId, String.toList_ofList]
    rw [hchars]
    exact hdomain
  · intro hslash
    rw [List.splitOn_eq_singleton hslash, List.singleton_append, List.cons.injEq] at hsplit
    rw [SpiffeName.toId, ← hsplit.1, String.ofList_toList]

theorem isTrustDomain_of_parse {td name : String} {id : SpiffeId}
    (h : Go.parseSpiffeID (serviceId td name) = .ok id) (hslash : '/' ∉ td.toList) :
    IsTrustDomain td.toList := by
  obtain ⟨n, hparse, hsplit⟩ := splitOn_of_isServiceName ⟨id, h⟩
  rw [List.splitOn_eq_singleton hslash, List.singleton_append, List.cons.injEq] at hsplit
  rw [hsplit.1]
  exact n.domain_ok

/-! ### Calls for other names -/

section

variable {rt : Runtime} {supply : ℕ → Point} {root : PathName} (hroot : PlainPath root)

include hroot

theorem domain_of_trustDomainAt {R : String → ℕ → Prop} {c₀ : ℕ} {s : Disk} {td : String}
    (hs : Sound rt.sha256 supply root R c₀ s) (h : trustDomainAt root s = some td) (reader : Impl) :
    reader.domain (bundleFile root s) = some td := by
  obtain ⟨ids, hget, -⟩ := doc_of_trustDomainAt hroot hs h
  rw [bundleFile_of_get hroot hget]
  exact Impl.domain_document td ids reader

/-- All readers find what one of them finds. -/
theorem bound_same {R : String → ℕ → Prop} {c₀ : ℕ} {s : Disk} {td : String}
    (hs : Sound rt.sha256 supply root R c₀ s) (h : trustDomainAt root s = some td)
    (reader reader' : Impl) (id : String) :
    reader.bound (bundleFile root s) id = reader'.bound (bundleFile root s) id := by
  obtain ⟨ids, hget, -⟩ := doc_of_trustDomainAt hroot hs h
  rw [bundleFile_of_get hroot hget, bound_document, bound_document]

theorem trustDomainAt_of_domain {R : String → ℕ → Prop} {c₀ : ℕ} {s : Disk} {td : String}
    (hs : Sound rt.sha256 supply root R c₀ s) {impl : Impl}
    (h : impl.domain (bundleFile root s) = some td) : trustDomainAt root s = some td := by
  have hdoc : ∃ d, bundleFile root s = .doc d := by
    cases hf : bundleFile root s with
    | doc d => exact ⟨d, rfl⟩
    | missing =>
      rw [hf] at h
      cases impl <;> cases h
    | notJson =>
      rw [hf] at h
      cases impl <;> cases h
  obtain ⟨d, hd⟩ := hdoc
  obtain ⟨td', ids, rfl, -⟩ := hs.document hroot hd
  rw [hd, Impl.domain_document] at h
  rw [trustDomainAt_document hroot (get_of_bundleFile hroot hd), h]

omit hroot in
theorem Impl.visits_outcome (call : Call) (s : Disk) (impl : Impl) :
    impl.Visits rt supply root call s (impl.outcome rt supply root call s).2 := by
  cases impl with
  | python => exact Prog.visits_end _ s
  | typescript => exact Prog.visits_end _ s
  | go => exact Prog.visits_end _ s

/-- What is found under this ID has not changed, nor has the trust domain. -/
def SameAnswer (root : PathName) (td id : String) (s t : Disk) : Prop :=
  trustDomainAt root t = some td ∧ ∀ reader : Impl,
    reader.bound (bundleFile root t) id = reader.bound (bundleFile root s) id

variable {s : Disk} (hs : Sound rt.sha256 supply root (fun _ _ => True) 0 s) {td name m : String}
  (htd : trustDomainAt root s = some td) (hne : serviceId td name ≠ serviceId td m)

include hs htd hne

/-- A call that writes the bundle last has left it, or has returned. -/
theorem Impl.outcome_beside {call : Call} (hcall : call.On m)
    (hremove : ∀ name, call ≠ .removeService name) (impl : Impl) :
    SameAnswer root td (serviceId td name) s (impl.outcome rt supply root call s).2 := by
  have hvisits : impl.Visits rt supply root call s (impl.outcome rt supply root call s).2 :=
    impl.visits_outcome call s
  rcases Impl.sameBundle_or_writes hroot hs hvisits with hsame | hwrites
  · have hfile : bundleFile root (impl.outcome rt supply root call s).2 = bundleFile root s := by
      rw [bundleFile_eq hroot, bundleFile_eq hroot, show _ = _ from hsame]
    rw [SameAnswer, trustDomainAt, hfile]
    exact ⟨htd, fun _ => rfl⟩
  · obtain ⟨u, td', ids, -, -, hret⟩ := impl.returns_behind_write hroot hs hwrites hremove
    have hname : IsServiceName td m := by
      cases call with
      | initRoot _ => exact hcall.elim
      | addService n =>
        obtain rfl : n = m := hcall
        obtain ⟨td', htd', hname, -⟩ := hwrites
        cases htd.symm.trans htd'
        exact hname
      | rotateService n keepOld =>
        obtain rfl : n = m := hcall
        obtain ⟨td', hreg⟩ := hwrites
        cases htd.symm.trans hreg.domain
        exact hreg.name_ok
      | removeService n => exact absurd rfl (hremove n)
    have hend := hs.visits hroot (fun _ _ _ => trivial) hvisits
    rw [hret.outcome] at hend ⊢
    obtain ⟨d, hd⟩ : ∃ d, s.tree.get (bundlePath root) = some (.file (.json d)) := by
      obtain ⟨ids, hget, -⟩ := doc_of_trustDomainAt hroot hs htd
      exact ⟨_, hget⟩
    have hfile := bundleFile_of_get hroot hd
    have hdomain := domain_of_trustDomainAt hroot hs htd impl
    rw [hfile] at hdomain
    obtain ⟨hdomain', hbound⟩ := hret.framed hroot hd hdomain hname hcall
    have htd' := trustDomainAt_of_domain hroot hend hdomain'
    refine ⟨htd', fun reader => ?_⟩
    rw [bound_same hroot hend htd' reader impl, bound_same hroot hs htd reader impl, hfile]
    exact hbound _ hne

/-- A removal that leaves the bundle's file has taken its own entry out. -/
theorem Impl.removal_beside {impl : Impl}
    (htakes : ¬ impl.Takes s.tree (impl.join root [servicesDirname, m]) (bundlePath root)) :
    SameAnswer root td (serviceId td name) s
      (impl.outcome rt supply root (.removeService m) s).2 := by
  obtain ⟨ids, hget, -⟩ := doc_of_trustDomainAt hroot hs htd
  obtain ⟨ok, t, hout, hend⟩ := impl.removeService_ending rt supply hroot hget m
  rw [hout]
  rcases hend.bundle hroot hget with ⟨hgone, -⟩ | ⟨-, htd', hbound⟩
  · exact absurd hgone htakes
  · refine ⟨htd', fun reader => ?_⟩
    rw [hbound, if_neg hne]

omit hne in
theorem CallBeside.step {t : Disk} (h : CallBeside rt supply root name s t) :
    Sound rt.sha256 supply root (fun _ _ => True) 0 t ∧
      SameAnswer root td (serviceId td name) s t := by
  obtain ⟨impl, call, m, hm, hcall, htakes, rfl⟩ := h
  have hne : serviceId td name ≠ serviceId td m := by
    intro he
    exact hm (serviceId_injective td he).symm
  refine ⟨hs.visits hroot (fun _ _ _ => trivial) (impl.visits_outcome call s), ?_⟩
  by_cases hremove : ∀ name, call ≠ .removeService name
  · exact impl.outcome_beside hroot hs htd hne hcall hremove
  · obtain ⟨n, rfl⟩ := not_forall_not.mp hremove
    obtain rfl : n = m := hcall
    exact Impl.removal_beside hroot hs htd hne (htakes rfl)

omit hne in
theorem CallBeside.run {t : Disk}
    (h : Relation.ReflTransGen (CallBeside rt supply root name) s t) :
    Sound rt.sha256 supply root (fun _ _ => True) 0 t ∧
      SameAnswer root td (serviceId td name) s t := by
  induction h with
  | refl => exact ⟨hs, htd, fun _ => rfl⟩
  | tail _ hlast ih =>
    obtain ⟨hs', htd', hbound⟩ := ih
    obtain ⟨hs'', htd'', hbound'⟩ := hlast.step hroot hs' htd'
    exact ⟨hs'', htd'', fun reader => (hbound' reader).trans (hbound reader)⟩

end

section

variable {rt : Runtime} {supply : ℕ → Point} {root : PathName} (hroot : PlainPath root)

include hroot

/-- Every call for another accepted name is one. -/
theorem CallBeside.of_name {s : Disk} {td name m : String} {call : Call} (hcall : call.On m)
    (hm : m ≠ name) (hname : IsServiceName td m) (impl : Impl) :
    CallBeside rt supply root name s (impl.outcome rt supply root call s).2 := by
  refine ⟨impl, call, m, hm, hcall, fun _ => ?_, rfl⟩
  rw [impl.join_service hroot rt (plain_of_isServiceName hname)]
  exact Impl.Takes.not_bundle hroot hname

end

/-! ### The first key of a service -/

section

variable {ε τ κ : Type} {kit : Kit ε τ κ} {sha256 : Hash} {supply : ℕ → Point} {root : PathName}
  (hroot : PlainPath root) (lawful : kit.Lawful sha256) {s t : Disk} {td name : String}

include hroot lawful

theorem addService_value {id : SpiffeId}
    (h : (addServiceWith kit root name).Returns (Disk.semantics supply) s id t) :
    ∃ b, Reads kit root s b ∧
      Go.parseSpiffeID (serviceId (kit.text b.trustDomain) name) = .ok id := by
  unfold addServiceWith at h
  obtain ⟨b, v, hread, h⟩ := Prog.returns_bind.mp h
  obtain ⟨hreads, rfl⟩ := readBundle_returns hroot lawful hread
  obtain ⟨id', w, hparse, h⟩ := Prog.returns_bind.mp h
  obtain ⟨hid, rfl⟩ := Prog.returns_lift.mp hparse
  obtain ⟨there, v, -, h⟩ := Prog.returns_bind.mp h
  have hsame : id' = id := by
    split_ifs at h
    · exact (Prog.returns_pure.mp h).1
    · unfold provisionWith at h
      obtain ⟨_, _, -, h⟩ := Prog.returns_bind.mp h
      obtain ⟨_, _, -, h⟩ := Prog.returns_bind.mp h
      obtain ⟨_, _, -, h⟩ := Prog.returns_bind.mp h
      obtain ⟨_, _, -, h⟩ := Prog.returns_bind.mp h
      obtain ⟨_, _, -, h⟩ := Prog.returns_bind.mp h
      obtain ⟨_, _, -, h⟩ := Prog.returns_bind.mp h
      obtain ⟨_, _, -, h⟩ := Prog.returns_bind.mp h
      obtain ⟨_, _, -, h⟩ := Prog.returns_bind.mp h
      exact (Prog.returns_pure.mp h).1
  exact ⟨b, hreads, hsame ▸ (lawful.parseId_ok _ _).mp hid⟩

/-- On an empty bundle without a key for the name. -/
theorem addService_first {id : SpiffeId}
    (hdoc : s.tree.get (bundlePath root) = some (.file (.json (document (.str td) ∅))))
    (hkey : s.tree.get (keyPath root name) = none)
    (h : (addServiceWith kit root name).Returns (Disk.semantics supply) s id t) :
    Go.parseSpiffeID (serviceId td name) = .ok id ∧
      t.tree.get (keyPath root name) = some (.file (.key (supply s.generated))) ∧
      ∃ ids : Identities, ids.lookup id.toString = some [jwkAt sha256 supply s.generated] ∧
        t.tree.get (bundlePath root) = some (.file (.json (document (.str td) ids))) := by
  have hread : ∀ b, Reads kit root s b → ReadFrom kit td ∅ b := by
    rintro b ⟨d, hd, hparse⟩
    rw [hdoc] at hd
    cases hd
    exact lawful.readFrom hparse
  obtain ⟨b, hreads, hparse⟩ := addService_value hroot lawful h
  rw [(hread b hreads).text] at hparse
  obtain ⟨b, hreads, -, ⟨⟨n, hn⟩, -⟩ | hadded⟩ := addService_returns hroot lawful h
  · rw [hkey] at hn
    cases hn
  · obtain ⟨u, -, hnodes⟩ := hadded.nodes
    have hb := hread b hreads
    rw [hb.text] at hnodes
    refine ⟨hparse, ?_, b.identities.insert (serviceId td name) [jwkAt sha256 supply s.generated],
      ?_, ?_⟩
    · rw [hnodes, if_neg (keyPath_ne_bundlePath root name),
        if_neg (idPath_ne_keyPath root name name).symm, if_pos rfl]
    · rw [toString_of_parse hparse]
      exact AList.lookup_insert _
    · rw [hnodes, if_pos rfl, updated, hb.serialise]

end

section

variable {rt : Runtime} {supply : ℕ → Point} {root : PathName} (hroot : PlainPath root)
  {s t : Disk} {td name : String}

include hroot

theorem Impl.Returns.initialised {impl : Impl} (hfresh : FreshRoot root s)
    (hret : impl.Returns rt supply root (.initRoot td) s t) :
    t.tree.get (bundlePath root) = some (.file (.json (document (.str td) ∅))) ∧
      ∀ name, t.tree.get (keyPath root name) = none := by
  have hinit : ∀ {ε τ κ : Type} {kit : Kit ε τ κ}, kit.Lawful rt.sha256 →
      (initRootWith kit root td).Returns (Disk.semantics supply) s () t →
      t.tree.get (bundlePath root) = some (.file (.json (document (.str td) ∅))) ∧
        ∀ name, t.tree.get (keyPath root name) = none := by
    intro ε τ κ kit lawful h
    obtain ⟨u, hgrown, hnodes⟩ := (initRoot_returns hroot lawful h).nodes
    refine ⟨?_, fun name => ?_⟩
    · rw [hnodes, if_pos rfl, lawful.serialise_init]
    · rw [hnodes, if_neg (keyPath_ne_bundlePath root name)]
      have hoff : ¬ keyPath root name <+: root ++ [servicesDirname] := by
        intro hpre
        have hlen := hpre.length_le
        have hparts := List.length_pos_of_ne_nil (splitSlash_ne_nil name)
        simp [keyPath, serviceDir] at hlen
      rw [Volume.Grown.get_off_path hgrown hoff, keyPath, serviceDir, List.append_assoc]
      exact hfresh _ (by simp)
  cases impl with
  | python => exact hinit (Py.kit_lawful rt) hret
  | typescript => exact hinit (Ts.kit_lawful rt) hret
  | go => exact hinit (Go.kit_lawful rt) hret

theorem Impl.Adds.first {impl : Impl} {id : SpiffeId}
    (hdoc : s.tree.get (bundlePath root) = some (.file (.json (document (.str td) ∅))))
    (hkey : s.tree.get (keyPath root name) = none)
    (hadd : impl.Adds rt supply root name id s t) :
    Go.parseSpiffeID (serviceId td name) = .ok id ∧
      t.tree.get (keyPath root name) = some (.file (.key (supply s.generated))) ∧
      ∃ ids : Identities, ids.lookup id.toString = some [jwkAt rt.sha256 supply s.generated] ∧
        t.tree.get (bundlePath root) = some (.file (.json (document (.str td) ids))) := by
  cases impl with
  | python => exact addService_first hroot (Py.kit_lawful rt) hdoc hkey hadd
  | typescript => exact addService_first hroot (Ts.kit_lawful rt) hdoc hkey hadd
  | go => exact addService_first hroot (Go.kit_lawful rt) hdoc hkey hadd

theorem Impl.Adds.sound {impl : Impl} {id : SpiffeId}
    (hs : Sound rt.sha256 supply root (fun _ _ => True) 0 s)
    (hadd : impl.Adds rt supply root name id s t) :
    Sound rt.sha256 supply root (fun _ _ => True) 0 t := by
  have hret : impl.Returns rt supply root (.addService name) s t := by
    cases impl with
    | python => exact Prog.returns_bind.mpr ⟨id, t, hadd, Prog.returns_pure.mpr ⟨rfl, rfl⟩⟩
    | typescript => exact Prog.returns_bind.mpr ⟨id, t, hadd, Prog.returns_pure.mpr ⟨rfl, rfl⟩⟩
    | go => exact Prog.returns_bind.mpr ⟨id, t, hadd, Prog.returns_pure.mpr ⟨rfl, rfl⟩⟩
  have hvisits : impl.Visits rt supply root (.addService name) s t := by
    cases impl with
    | python => exact Prog.Returns.visits hret
    | typescript => exact Prog.Returns.visits hret
    | go => exact Prog.Returns.visits hret
  exact hs.visits hroot (fun _ _ _ => trivial) hvisits

end

/-- On a fresh root, an added service is visible in its trust domain for good
exactly if the text given for the trust domain has no slash. -/
theorem add_visible_iff (rt : Runtime) (supply : ℕ → Point) (root : PathName)
    (hroot : PlainPath root) (s₀ s₁ s₂ : Disk) (hfresh : FreshRoot root s₀) (impl₀ impl : Impl)
    (td name : String) (id : SpiffeId) (hinit : impl₀.Returns rt supply root (.initRoot td) s₀ s₁)
    (hadd : impl.Adds rt supply root name id s₁ s₂) :
    Visible rt supply root name id s₂ ↔ '/' ∉ td.toList := by
  obtain ⟨hdoc₁, hkey₁⟩ := hinit.initialised hroot hfresh
  obtain ⟨hparse, hkey, ids, hids, hdoc⟩ := hadd.first hroot hdoc₁ (hkey₁ name)
  have hs₁ : Sound rt.sha256 supply root (fun _ _ => True) 0 s₁ := by
    refine ⟨Nat.zero_le _, fun d hd => ?_⟩
    rw [hdoc₁] at hd
    cases hd
    exact ⟨td, ∅, rfl, Lists.empty _⟩
  have hs₂ := hadd.sound hroot hs₁
  have htd := trustDomainAt_document hroot hdoc
  constructor
  · intro h
    have hdomain := h.domain .go
    rw [domain_of_trustDomainAt hroot hs₂ htd] at hdomain
    exact (trustDomain_iff hparse).mp (Option.some_inj.mp hdomain).symm
  · intro hslash
    refine ⟨fun reader => ?_, _, hkey, fun t hrun reader => ?_⟩
    · rw [(trustDomain_iff hparse).mpr hslash]
      exact domain_of_trustDomainAt hroot hs₂ htd reader
    · have hid := toString_of_parse hparse
      have hin : inTrustDomain td id.toString = true := by
        rw [hid]
        exact inTrustDomain_serviceId (isTrustDomain_of_parse hparse hslash) ⟨id, hparse⟩
      obtain ⟨-, -, hbound⟩ := CallBeside.run hroot hs₂ htd hrun
      refine ⟨[jwkAt rt.sha256 supply s₁.generated], ?_, List.mem_singleton_self _⟩
      rw [hid, hbound, ← hid, bundleFile_of_get hroot hdoc, bound_document, readBack, if_pos hin, hids]
      rfl

namespace Sample

/-- The disk after TypeScript's `initRoot` and an added service. -/
def addedTo (td name : String) : Disk :=
  ((Ts.addService runtime root name).run (Disk.semantics supply)
    (after (.initRoot td) emptyDisk)).2

theorem freshRoot_emptyDisk : FreshRoot root emptyDisk := by
  intro q _
  simp [emptyDisk, emptyVolume, Volume.get, AList.lookup, root]

theorem adds_addedTo {td name : String} {id : SpiffeId}
    (h : ((Ts.addService runtime root name).run (Disk.semantics supply)
      (after (.initRoot td) emptyDisk)).1 = .ok id) :
    Impl.typescript.Adds runtime supply root name id (after (.initRoot td) emptyDisk)
      (addedTo td name) :=
  Prod.ext h rfl

end Sample

theorem add_visible_iff_sample :
    Visible Sample.runtime Sample.supply Sample.root "x" ⟨"a.b", "/x"⟩ (Sample.addedTo "a.b" "x") :=
  (add_visible_iff Sample.runtime Sample.supply Sample.root Sample.plain_root Sample.emptyDisk _ _
    Sample.freshRoot_emptyDisk .typescript .typescript "a.b" "x" ⟨"a.b", "/x"⟩
    (Sample.returns_after rfl) (Sample.adds_addedTo rfl)).mpr (by decide)

/-- The service `y` under the trust domain `a.b/x` gets an ID of `a.b`. -/
theorem slash_hides_service :
    FreshRoot Sample.root Sample.emptyDisk ∧
      Impl.typescript.Returns Sample.runtime Sample.supply Sample.root (.initRoot "a.b/x")
        Sample.emptyDisk (Sample.after (.initRoot "a.b/x") Sample.emptyDisk) ∧
      Impl.typescript.Adds Sample.runtime Sample.supply Sample.root "y" ⟨"a.b", "/x/y"⟩
        (Sample.after (.initRoot "a.b/x") Sample.emptyDisk) (Sample.addedTo "a.b/x" "y") ∧
      ¬ Visible Sample.runtime Sample.supply Sample.root "y" ⟨"a.b", "/x/y"⟩
        (Sample.addedTo "a.b/x" "y") := by
  refine ⟨Sample.freshRoot_emptyDisk, Sample.returns_after rfl, Sample.adds_addedTo rfl, ?_⟩
  intro h
  have hdomain : Impl.go.domain (bundleFile Sample.root (Sample.addedTo "a.b/x" "y")) =
      some "a.b/x" := rfl
  have hsame : some "a.b/x" = some "a.b" := hdomain.symm.trans (h.domain .go)
  exact absurd hsame (by decide)

end Spiffile
