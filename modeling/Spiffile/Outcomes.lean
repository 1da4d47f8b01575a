import Spiffile.Provisioned

/-!
# What a call that returns has done

One statement for each provisioning function: the nodes of the tree after a
call that returned without an error, in terms of those before.
-/

namespace Spiffile

open FileTree

section

variable {ε τ κ : Type} (kit : Kit ε τ κ) (sha256 : Hash) (supply : ℕ → Point) (root : PathName)

/-- The bundle file holds a document that reads as `b`. -/
def Reads (s : Disk) (b : Bundle τ) : Prop :=
  ∃ d, s.tree.get (bundlePath root) = some (.file (.json d)) ∧
    kit.parseBundle (kit.file (.ok (.json d))) = .ok b

/-- The document with `identities` in the place of those of `b`. -/
def updated (b : Bundle τ) (identities : Identities) : Node Content :=
  .file (.json (kit.serialise { b with identities := identities }))

structure Initialised (trustDomain : String) (s t : Disk) : Prop where
  fresh : s.tree.get (bundlePath root) = none
  generated : t.generated = s.generated
  nodes : ∃ u, Volume.Grown s.tree u (root ++ [servicesDirname]) ∧ ∀ q, t.tree.get q =
    if q = bundlePath root then
      some (.file (.json (kit.serialise ⟨kit.trustDomain trustDomain, ∅⟩)))
    else u.get q

/-- A service that got its first key. -/
structure Added (b : Bundle τ) (name : String) (s t : Disk) : Prop where
  fresh : s.tree.get (keyPath root name) = none
  generated : t.generated = s.generated + 1
  nodes : ∃ u, Volume.Grown s.tree u (serviceDir root name) ∧ ∀ q, t.tree.get q =
    if q = bundlePath root then
      some (updated kit b (b.identities.insert (serviceId (kit.text b.trustDomain) name)
        [jwkAt sha256 supply s.generated]))
    else if q = idPath root name then
      some (.file (.text (serviceId (kit.text b.trustDomain) name ++ "\n")))
    else if q = keyPath root name then some (.file (.key (supply s.generated)))
    else u.get q

/-- A service that got another key. -/
structure Renewed (b : Bundle τ) (name : String) (keepOld : Bool) (s t : Disk) : Prop where
  present : ∃ c, s.tree.get (keyPath root name) = some (.file c)
  generated : t.generated = s.generated + 1
  nodes : ∃ k others, kit.publicJwk (supply s.generated) = .ok k ∧
    kit.keepOthers k (if keepOld then
      (b.identities.lookup (serviceId (kit.text b.trustDomain) name)).getD [] else []) = .ok others ∧
    ∀ q, t.tree.get q =
      if q = bundlePath root then
        some (updated kit b (b.identities.insert (serviceId (kit.text b.trustDomain) name)
          (jwkAt sha256 supply s.generated :: others)))
      else if q = keyPath root name then some (.file (.key (supply s.generated)))
      else s.tree.get q

/-- The name is out of the bundle, and its files are still to be removed. -/
structure Unlisted (b : Bundle τ) (name : String) (s t : Disk) : Prop where
  generated : t.generated = s.generated
  nodes : ∀ q, t.tree.get q =
    if q = bundlePath root then
      some (updated kit b (b.identities.erase (serviceId (kit.text b.trustDomain) name)))
    else s.tree.get q

end

section

variable {ε τ κ : Type} {kit : Kit ε τ κ} {sha256 : Hash} {supply : ℕ → Point} {root : PathName}

theorem write_returns {p : PathName} (hp : PlainPath p) {c : Content} {raised : Errno → ε} {u : Unit}
    {s t : Disk}
    (h : (write p c >>= fun done => check raised done : Prog Cmd Ans ε Unit).Returns
      (Disk.semantics supply) s u t) :
    s.tree.Puttable p ∧ t = { s with tree := s.tree.put p (.file c) } := by
  obtain ⟨done, v, hwrite, hcheck⟩ := Prog.returns_bind.mp h
  obtain ⟨hdone, hv⟩ := Prog.returns_exec.mp hwrite
  obtain ⟨hok, rfl⟩ := Prog.returns_lift.mp hcheck
  rw [mapError_eq_ok] at hok
  have hok' : (s.tree.write p c).1 = .ok u := hdone.trans hok
  have hv' : v = { s with tree := (s.tree.write p c).2 } := hv.symm
  rcases s.tree.write_plain_cases hp c with ⟨e, he⟩ | ⟨hput, he⟩
  · rw [he] at hok'
    cases hok'
  · rw [he] at hv'
    exact ⟨hput, hv'⟩

theorem writeKey_returns {p : PathName} (hp : PlainPath p) {key : Point} {u : Unit} {s t : Disk}
    (h : (writeKeyWith kit p key).Returns (Disk.semantics supply) s u t) :
    s.tree.Puttable p ∧ t = { s with tree := s.tree.put p (.file (.key key)) } := by
  unfold writeKeyWith at h
  obtain ⟨done, v, hwrite, h⟩ := Prog.returns_bind.mp h
  obtain ⟨_, w, hcheck, h⟩ := Prog.returns_bind.mp h
  obtain ⟨hput, rfl⟩ := write_returns hp (Prog.returns_bind.mpr ⟨done, v, hwrite, hcheck⟩)
  refine ⟨hput, ?_⟩
  split_ifs at h
  · obtain ⟨_, x, hchmod, h⟩ := Prog.returns_bind.mp h
    obtain ⟨-, rfl⟩ := Prog.returns_exec.mp hchmod
    exact (Prog.returns_lift.mp h).2.symm
  · exact (Prog.returns_pure.mp h).2.symm

variable (hroot : PlainPath root)

include hroot

theorem writeBundle_returns {b : Bundle τ} {u : Unit} {s t : Disk}
    (h : (writeBundleWith kit (bundlePath root) b).Returns (Disk.semantics supply) s u t) :
    s.tree.Puttable (bundlePath root) ∧
      t = { s with tree := s.tree.put (bundlePath root) (.file (.json (kit.serialise b))) } :=
  write_returns (plainPath_bundlePath hroot) h

variable (lawful : kit.Lawful sha256)

include lawful

theorem readBundle_returns {b : Bundle τ} {s t : Disk}
    (h : (readBundleWith kit root).Returns (Disk.semantics supply) s b t) :
    Reads kit root s b ∧ s = t := by
  unfold readBundleWith at h
  rw [join_bundle lawful hroot] at h
  obtain ⟨answer, v, hread, h⟩ := Prog.returns_bind.mp h
  obtain ⟨hanswer, hv⟩ := Prog.returns_exec.mp hread
  obtain ⟨hparse, rfl⟩ := Prog.returns_lift.mp h
  obtain ⟨d, rfl⟩ := lawful.parse_ok _ _ hparse
  have hget : s.tree.read (bundlePath root) = .ok (.json d) := hanswer
  exact ⟨⟨d, (Volume.read_plain_eq_ok (plainPath_bundlePath hroot) _ _).mp hget, hparse⟩, hv⟩

omit lawful hroot in
/-- A returning `mkdirs` made its directory. -/
theorem mkdirs_returns {p : PathName} (hp : PlainPath p) {α : Type} {raised : Errno → ε}
    {f : Unit → Prog Cmd Ans ε α} {a : α} {s t : Disk}
    (h : (mkdirs p >>= fun done => check raised done >>= f).Returns (Disk.semantics supply) s a t) :
    ∃ u, Volume.Grown s.tree u p ∧
      (f ()).Returns (Disk.semantics supply) { s with tree := u } a t := by
  obtain ⟨done, v, hmkdirs, h⟩ := Prog.returns_bind.mp h
  obtain ⟨-, hv⟩ := Prog.returns_exec.mp hmkdirs
  obtain ⟨_, w, hcheck, h⟩ := Prog.returns_bind.mp h
  obtain ⟨-, rfl⟩ := Prog.returns_lift.mp hcheck
  refine ⟨(s.tree.mkdirs p).2, (Volume.mkdirs_spec hp s.tree).1, ?_⟩
  have hv' : v = { s with tree := (s.tree.mkdirs p).2 } := hv.symm
  rwa [hv'] at h

theorem initRoot_returns {td : String} {u : Unit} {s t : Disk}
    (h : (initRootWith kit root td).Returns (Disk.semantics supply) s u t) :
    Initialised kit root td s t := by
  unfold initRootWith at h
  dsimp only at h
  rw [join_bundle lawful hroot, join_services lawful hroot] at h
  obtain ⟨there, v, hpresent, h⟩ := Prog.returns_bind.mp h
  obtain ⟨hthere, rfl⟩ := Prog.returns_exec.mp hpresent
  have hget : there = (s.tree.get (bundlePath root)).isSome :=
    hthere.symm.trans (Volume.present_plain (plainPath_bundlePath hroot) s.tree)
  split_ifs at h with hif
  · exact absurd h Prog.not_returns_throw
  have hfresh : s.tree.get (bundlePath root) = none := by simpa [hget] using hif
  obtain ⟨w, hgrown, h⟩ :=
    mkdirs_returns (hroot.append (plainPath_singleton plain_servicesDirname)) h
  obtain ⟨hput, rfl⟩ := writeBundle_returns hroot h
  exact ⟨hfresh, rfl, w, hgrown, fun q => Volume.get_put hput _ q⟩

theorem setKeys_returns {b : Bundle τ} {id : String} {keys : List Json} {u : Unit} {s t : Disk}
    (h : (setKeysWith kit root b id keys).Returns (Disk.semantics supply) s u t) :
    t.generated = s.generated ∧ ∀ q, t.tree.get q =
      if q = bundlePath root then some (updated kit b (b.identities.insert id keys))
      else s.tree.get q := by
  rw [setKeysWith, join_bundle lawful hroot] at h
  obtain ⟨hput, rfl⟩ := writeBundle_returns hroot h
  exact ⟨rfl, fun q => Volume.get_put hput _ q⟩

theorem provision_returns {b : Bundle τ} {name : String} {id r : SpiffeId} {s t : Disk}
    (hid : id.toString = serviceId (kit.text b.trustDomain) name)
    (hname : PlainPath (splitSlash name)) (hfresh : s.tree.get (keyPath root name) = none)
    (h : (provisionWith kit root b id (serviceDir root name)).Returns (Disk.semantics supply)
      s r t) : Added kit sha256 supply root b name s t := by
  unfold provisionWith at h
  rw [join_key lawful hroot hname, join_id lawful hroot hname, hid] at h
  obtain ⟨u, hgrown, h⟩ := mkdirs_returns (plainPath_serviceDir hroot hname) h
  obtain ⟨key, v, hgen, h⟩ := Prog.returns_bind.mp h
  obtain ⟨hkey, rfl⟩ := Prog.returns_exec.mp hgen
  have hkey' : key = supply s.generated := hkey.symm
  obtain ⟨_, w, hwriteKey, h⟩ := Prog.returns_bind.mp h
  obtain ⟨hputKey, rfl⟩ := writeKey_returns (plainPath_keyPath hroot hname) hwriteKey
  obtain ⟨done, x, hwrite, h⟩ := Prog.returns_bind.mp h
  obtain ⟨_, y, hcheck, h⟩ := Prog.returns_bind.mp h
  obtain ⟨hputId, rfl⟩ := write_returns (plainPath_idPath hroot hname)
    (Prog.returns_bind.mpr ⟨done, x, hwrite, hcheck⟩)
  obtain ⟨k, z, hlift, h⟩ := Prog.returns_bind.mp h
  obtain ⟨hk, rfl⟩ := Prog.returns_lift.mp hlift
  rw [hkey'] at hk
  rw [(jwk_of_generated lawful hk).1] at h
  obtain ⟨_, z', hset, h⟩ := Prog.returns_bind.mp h
  obtain ⟨-, rfl⟩ := Prog.returns_pure.mp h
  obtain ⟨hcount, hnodes⟩ := setKeys_returns hroot lawful hset
  refine ⟨hfresh, hcount, u, hgrown, fun q => ?_⟩
  rw [hnodes q]
  dsimp only
  rw [Volume.get_put hputId, Volume.get_put hputKey, hkey']
  rfl

/-- `add_service` finds a key and leaves everything, or makes one. -/
theorem addService_returns {name : String} {r : SpiffeId} {s t : Disk}
    (h : (addServiceWith kit root name).Returns (Disk.semantics supply) s r t) :
    ∃ b, Reads kit root s b ∧ IsServiceName (kit.text b.trustDomain) name ∧
      ((∃ n, s.tree.get (keyPath root name) = some n) ∧ s = t ∨
        Added kit sha256 supply root b name s t) := by
  unfold addServiceWith at h
  obtain ⟨b, v, hread, h⟩ := Prog.returns_bind.mp h
  obtain ⟨hreads, rfl⟩ := readBundle_returns hroot lawful hread
  obtain ⟨id, w, hparse, h⟩ := Prog.returns_bind.mp h
  obtain ⟨hid, rfl⟩ := Prog.returns_lift.mp hparse
  rw [lawful.parseId_ok] at hid
  have hname : PlainPath (splitSlash name) := plain_of_isServiceName ⟨id, hid⟩
  refine ⟨b, hreads, ⟨id, hid⟩, ?_⟩
  dsimp only at h
  rw [join_service lawful hroot hname, join_key lawful hroot hname] at h
  obtain ⟨there, v, hpresent, h⟩ := Prog.returns_bind.mp h
  obtain ⟨hthere, rfl⟩ := Prog.returns_exec.mp hpresent
  have hget : there = (s.tree.get (keyPath root name)).isSome :=
    hthere.symm.trans (Volume.present_plain (plainPath_keyPath hroot hname) s.tree)
  split_ifs at h with hif
  · obtain ⟨-, rfl⟩ := Prog.returns_pure.mp h
    exact Or.inl ⟨Option.isSome_iff_exists.mp (hget ▸ hif), rfl⟩
  · have hfresh : s.tree.get (keyPath root name) = none := by simpa [hget] using hif
    exact Or.inr (provision_returns hroot lawful (toString_of_parse hid) hname hfresh h)

theorem rotateService_returns {name : String} {keepOld : Bool} {r : SpiffeId} {s t : Disk}
    (h : (rotateServiceWith kit root name keepOld).Returns (Disk.semantics supply) s r t) :
    ∃ b, Reads kit root s b ∧ IsServiceName (kit.text b.trustDomain) name ∧
      Renewed kit sha256 supply root b name keepOld s t := by
  unfold rotateServiceWith at h
  obtain ⟨b, v, hread, h⟩ := Prog.returns_bind.mp h
  obtain ⟨hreads, rfl⟩ := readBundle_returns hroot lawful hread
  obtain ⟨id, w, hparse, h⟩ := Prog.returns_bind.mp h
  obtain ⟨hid, rfl⟩ := Prog.returns_lift.mp hparse
  rw [lawful.parseId_ok] at hid
  have hname : PlainPath (splitSlash name) := plain_of_isServiceName ⟨id, hid⟩
  have hstr := toString_of_parse hid
  refine ⟨b, hreads, ⟨id, hid⟩, ?_⟩
  dsimp only at h
  rw [join_service_key lawful hroot hname] at h
  obtain ⟨there, v, hpresent, h⟩ := Prog.returns_bind.mp h
  obtain ⟨hthere, rfl⟩ := Prog.returns_exec.mp hpresent
  have hget : there = (s.tree.get (keyPath root name)).isSome :=
    hthere.symm.trans (Volume.present_plain (plainPath_keyPath hroot hname) s.tree)
  split_ifs at h with hif
  swap
  · exact absurd h Prog.not_returns_throw
  unfold renewWith at h
  rw [hstr] at h
  obtain ⟨key, v, hgen, h⟩ := Prog.returns_bind.mp h
  obtain ⟨hkey, rfl⟩ := Prog.returns_exec.mp hgen
  have hkey' : key = supply s.generated := hkey.symm
  obtain ⟨k, v, hlift, h⟩ := Prog.returns_bind.mp h
  obtain ⟨hk, rfl⟩ := Prog.returns_lift.mp hlift
  rw [hkey'] at hk
  obtain ⟨others, v, hlift, h⟩ := Prog.returns_bind.mp h
  obtain ⟨hothers, rfl⟩ := Prog.returns_lift.mp hlift
  rw [(jwk_of_generated lawful hk).1] at h
  obtain ⟨_, w, hwriteKey, h⟩ := Prog.returns_bind.mp h
  obtain ⟨hputKey, rfl⟩ := writeKey_returns (plainPath_keyPath hroot hname) hwriteKey
  obtain ⟨_, z, hset, h⟩ := Prog.returns_bind.mp h
  obtain ⟨-, rfl⟩ := Prog.returns_pure.mp h
  obtain ⟨hcount, hnodes⟩ := setKeys_returns hroot lawful hset
  refine ⟨?_, hcount, k, others, hk, hothers, fun q => ?_⟩
  · obtain ⟨n, hn⟩ := Option.isSome_iff_exists.mp (hget ▸ hif)
    cases n with
    | file c => exact ⟨c, hn⟩
    | dir => exact absurd ((s.tree.isDir_iff _).mpr hn) hputKey.2.2
  · rw [hnodes q]
    dsimp only
    rw [Volume.get_put hputKey, hkey']
    rfl

/-- `remove_service` takes the name out of the bundle and goes on to the files. -/
theorem removeService_returns {removeFiles : PathName → Prog Cmd Ans ε Unit} {name : String} {r : Unit}
    {s t : Disk}
    (h : (removeServiceWith kit removeFiles root name).Returns (Disk.semantics supply) s r t) :
    ∃ b u, Reads kit root s b ∧ Unlisted kit root b name s u ∧
      (removeFiles (kit.join root [servicesDirname, name])).Returns (Disk.semantics supply)
        u r t := by
  unfold removeServiceWith at h
  obtain ⟨b, v, hread, h⟩ := Prog.returns_bind.mp h
  obtain ⟨hreads, rfl⟩ := readBundle_returns hroot lawful hread
  rw [join_bundle lawful hroot] at h
  obtain ⟨_, u, hwrite, h⟩ := Prog.returns_bind.mp h
  obtain ⟨hput, rfl⟩ := writeBundle_returns hroot hwrite
  refine ⟨b, _, hreads, ?_, h⟩
  exact ⟨rfl, fun q => Volume.get_put hput _ q⟩

end

end Spiffile
