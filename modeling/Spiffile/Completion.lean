import Spiffile.Outcomes

/-!
# When a call goes through

The other direction of the statements about returning calls: from a written
document, and with no file in the way, a provisioning function comes to its
write of the bundle and returns. A write that is cut short leaves a text at the
bundle's path.
-/

namespace Spiffile

open FileTree

/-- The disk with other content in the bundle file. -/
def Disk.withBundle (root : PathName) (s : Disk) (c : Content) : Disk :=
  { s with tree := s.tree.put (bundlePath root) (.file c) }

section

variable {ε τ κ : Type} {kit : Kit ε τ κ} {sha256 : Hash} {supply : ℕ → Point} {root : PathName}

/-! ### The parts -/

theorem check_leadsTo {α β : Type} {raised : Errno → ε} {r : Except Errno α} {a : α} {s : Disk}
    (f : α → Prog Cmd Ans ε β) (hr : r = .ok a) :
    (check raised r >>= f).LeadsTo (Disk.semantics supply) s (f a) s :=
  Prog.leadsTo_lift_bind f s (mapError_eq_ok.mpr hr)

theorem write_step (supply : ℕ → Point) {p : PathName} (hp : PlainPath p) {c : Content} {s : Disk}
    (hput : s.tree.Puttable p) :
    (Disk.semantics supply).step (.write p c) s = (.ok (), { s with tree := s.tree.put p (.file c) }) := by
  have hfile : s.tree.get p ≠ some .dir := fun hdir => hput.2.2 ((s.tree.isDir_iff p).mpr hdir)
  obtain ⟨-, hwrite⟩ := Volume.write_plain hp s.tree hput.1 ((s.tree.isDir_iff _).mp hput.2.1) hfile c
  change s.withTree (s.tree.write p c) = _
  rw [hwrite]
  rfl

theorem write_leadsTo {α : Type} {p : PathName} (hp : PlainPath p) {c : Content} {raised : Errno → ε}
    {s : Disk} (hput : s.tree.Puttable p) (f : Unit → Prog Cmd Ans ε α) :
    (write p c >>= fun done => check raised done >>= f).LeadsTo (Disk.semantics supply) s (f ())
      { s with tree := s.tree.put p (.file c) } := by
  have hlead := Prog.leadsTo_exec_bind (S := Disk.semantics supply) (Cmd.write p c)
    (fun done => check raised done >>= f) s
  rw [write_step supply hp hput] at hlead
  exact hlead.trans (check_leadsTo f rfl)

theorem mkdirs_leadsTo {α : Type} {p : PathName} (hp : PlainPath p) {raised : Errno → ε} {s : Disk}
    (hpass : s.tree.Passable p) (f : Unit → Prog Cmd Ans ε α) :
    (mkdirs p >>= fun done => check raised done >>= f).LeadsTo (Disk.semantics supply) s (f ())
      { s with tree := (s.tree.mkdirs p).2 } := by
  have hok : (s.tree.mkdirs p).1 = .ok () := (Volume.mkdirs_ok_iff hp s.tree).mpr hpass
  exact (Prog.leadsTo_exec_bind (Cmd.mkdirs p) _ s).trans (check_leadsTo f hok)

theorem present_leadsTo {α : Type} {p : PathName} (hp : PlainPath p) (s : Disk)
    (f : Bool → Prog Cmd Ans ε α) :
    (present p >>= f).LeadsTo (Disk.semantics supply) s (f (s.tree.get p).isSome) s := by
  have hlead := Prog.leadsTo_exec_bind (S := Disk.semantics supply) (Cmd.present p) f s
  have hstep : (Disk.semantics supply).step (.present p) s = ((s.tree.get p).isSome, s) :=
    Prod.ext (Volume.present_plain hp s.tree) rfl
  rwa [hstep] at hlead

theorem generateKey_leadsTo {α : Type} (s : Disk) (f : Point → Prog Cmd Ans ε α) :
    (generateKey >>= f).LeadsTo (Disk.semantics supply) s (f (supply s.generated))
      { s with generated := s.generated + 1 } :=
  Prog.leadsTo_bind (Prog.returns_exec.mpr ⟨rfl, rfl⟩)

theorem chmod_step (supply : ℕ → Point) {p : PathName} (hp : PlainPath p) {s : Disk} {n : Node Content}
    (hget : s.tree.get p = some n) : (Disk.semantics supply).step (.chmod p) s = (.ok (), s) := by
  change Disk.step supply (.chmod p) s = (.ok (), s)
  simp only [Disk.step]
  rw [Volume.stat_plain_some hp _ hget]

theorem writeKey_leadsTo {α : Type} {p : PathName} (hp : PlainPath p) {key : Point} {s : Disk}
    (hput : s.tree.Puttable p) (f : Unit → Prog Cmd Ans ε α) :
    (writeKeyWith kit p key >>= f).LeadsTo (Disk.semantics supply) s (f ())
      { s with tree := s.tree.put p (.file (.key key)) } := by
  refine Prog.leadsTo_bind (Prog.LeadsTo.returns (write_leadsTo hp hput _) ?_)
  split_ifs
  · have hget : (s.tree.put p (.file (.key key))).get p = some (.file (.key key)) := by
      rw [Volume.get_put hput, if_pos rfl]
    have hstep := chmod_step supply hp (s := { s with tree := s.tree.put p (.file (.key key)) }) hget
    have hlead := Prog.leadsTo_exec_bind (S := Disk.semantics supply) (Cmd.chmod p)
      (fun done => check kit.raised done) { s with tree := s.tree.put p (.file (.key key)) }
    rw [hstep] at hlead
    exact hlead.returns (Prog.returns_lift.mpr ⟨rfl, rfl⟩)
  · exact Prog.returns_pure.mpr ⟨rfl, rfl⟩

variable (hroot : PlainPath root) (lawful : kit.Lawful sha256)

include hroot

/-- What a write of the bundle leaves when it is cut short. -/
theorem writeBundle_torn {b : Bundle τ} {s : Disk} (hput : s.tree.Puttable (bundlePath root))
    (text : String) : (writeBundleWith kit (bundlePath root) b).Visits (Disk.semantics supply) s
      (s.withBundle root (.text text)) := by
  have hresolve : s.tree.resolve (bundlePath root) = .ok (bundlePath root) :=
    Volume.resolve_plain (plainPath_bundlePath hroot) s.tree ((s.tree.isDir_iff _).mp hput.2.1)
  exact Or.inr (Or.inl ⟨bundlePath root, text, hresolve, hput, rfl⟩)

theorem writeBundle_completes {b : Bundle τ} {s : Disk} (hput : s.tree.Puttable (bundlePath root)) :
    (writeBundleWith kit (bundlePath root) b).Returns (Disk.semantics supply) s ()
      (s.withBundle root (.json (kit.serialise b))) := by
  have hstep := write_step supply (plainPath_bundlePath hroot)
    (c := .json (kit.serialise b)) hput
  exact Prog.returns_bind.mpr ⟨.ok (), _, Prog.returns_exec.mpr (Prod.ext_iff.mp hstep),
    Prog.returns_lift.mpr ⟨rfl, rfl⟩⟩

include lawful

theorem readBundle_completes (supply : ℕ → Point) {s : Disk} {td : String} {ids : Identities}
    (hdoc : s.tree.get (bundlePath root) = some (.file (.json (document (.str td) ids)))) :
    ∃ b, ReadFrom kit td ids b ∧
      (readBundleWith kit root).Returns (Disk.semantics supply) s b s := by
  obtain ⟨b, hb, htext, hser, hlookup⟩ := lawful.parse_document td ids
  refine ⟨b, ⟨htext, hser, hlookup⟩, ?_⟩
  have hread : s.tree.read (bundlePath root) = .ok (.json (document (.str td) ids)) :=
    (Volume.read_plain_eq_ok (plainPath_bundlePath hroot) _ _).mpr hdoc
  rw [readBundleWith, join_bundle lawful hroot]
  exact Prog.returns_bind.mpr ⟨_, s, Prog.returns_exec.mpr ⟨hread, rfl⟩,
    Prog.returns_lift.mpr ⟨hb, rfl⟩⟩

end

/-! ### The functions -/

/-- The program comes to a write of the bundle, and returns behind it. -/
def EndsInWrite {ε α : Type} (supply : ℕ → Point) (root : PathName) (p : Prog Cmd Ans ε α) (s : Disk) :
    Prop :=
  ∃ (u : Disk) (td : String) (ids : Identities) (a : α), u.tree.Puttable (bundlePath root) ∧
    (∀ text, p.Visits (Disk.semantics supply) s (u.withBundle root (.text text))) ∧
    p.Returns (Disk.semantics supply) s a (u.withBundle root (.json (document (.str td) ids)))

section

variable {ε τ κ : Type} {kit : Kit ε τ κ} {sha256 : Hash} {supply : ℕ → Point} {root : PathName}

theorem EndsInWrite.of_leadsTo {α : Type} {p q : Prog Cmd Ans ε α} {s u : Disk}
    (h : p.LeadsTo (Disk.semantics supply) s q u) (hq : EndsInWrite supply root q u) :
    EndsInWrite supply root p s := by
  obtain ⟨v, td, ids, a, hput, htorn, hret⟩ := hq
  exact ⟨v, td, ids, a, hput, fun text => h.visits _ (htorn text), h.returns hret⟩

theorem EndsInWrite.bind_pure {α β : Type} {p : Prog Cmd Ans ε α} {s : Disk}
    (h : EndsInWrite supply root p s) (f : α → β) :
    EndsInWrite supply root (p >>= fun a => pure (f a)) s := by
  obtain ⟨v, td, ids, a, hput, htorn, hret⟩ := h
  refine ⟨v, td, ids, f a, hput, fun text => ?_, ?_⟩
  · exact (Prog.visits_bind _ _ _ _).mpr (Or.inl (htorn text))
  · exact Prog.returns_bind.mpr ⟨a, _, hret, Prog.returns_pure.mpr ⟨rfl, rfl⟩⟩

theorem bundlePath_off_services (root rest : PathName) :
    ¬ bundlePath root <+: root ++ servicesDirname :: rest := by
  intro h
  have hname := (List.cons_prefix_cons.mp ((List.prefix_append_right_inj root).mp h)).1
  exact absurd hname (by decide)

/-- A path below another is not on the way to it. -/
theorem not_on_way_of_append {p : PathName} {name : String} : ¬ p ++ [name] <+: p := by
  intro h
  have hlen := h.length_le
  simp at hlen

variable (hroot : PlainPath root) (lawful : kit.Lawful sha256)

include hroot

theorem writeBundle_endsInWrite {b : Bundle τ} {s : Disk} {td : String} {ids : Identities}
    (hput : s.tree.Puttable (bundlePath root)) (hd : kit.serialise b = document (.str td) ids) :
    EndsInWrite supply root (writeBundleWith kit (bundlePath root) b) s :=
  ⟨s, td, ids, (), hput, writeBundle_torn hroot hput, hd ▸ writeBundle_completes hroot hput⟩

include lawful

theorem initRoot_endsInWrite {s : Disk} (hnone : s.tree.get (bundlePath root) = none)
    (hpass : s.tree.Passable (root ++ [servicesDirname])) (td : String) :
    EndsInWrite supply root (initRootWith kit root td) s := by
  have hplain : PlainPath (root ++ [servicesDirname]) :=
    hroot.append (plainPath_singleton plain_servicesDirname)
  unfold initRootWith
  rw [join_bundle lawful hroot, join_services lawful hroot]
  refine .of_leadsTo (present_leadsTo (plainPath_bundlePath hroot) s _) ?_
  rw [hnone, Option.isSome_none, if_neg Bool.false_ne_true]
  refine .of_leadsTo (mkdirs_leadsTo hplain hpass _) ?_
  obtain ⟨hgrown, hdir⟩ := Volume.mkdirs_spec hplain s.tree
  have hservices := hdir ((Volume.mkdirs_ok_iff hplain s.tree).mpr hpass)
  have hput : (s.tree.mkdirs (root ++ [servicesDirname])).2.Puttable (bundlePath root) := by
    refine Volume.puttable_child (Volume.get_parent _ hservices) ?_
    rw [← hnone]
    exact Volume.Grown.get_off_path hgrown (bundlePath_off_services root [])
  exact writeBundle_endsInWrite hroot hput (lawful.serialise_init td ∅)

theorem addService_endsInWrite {s : Disk} {td name : String} {ids : Identities}
    (hdoc : s.tree.get (bundlePath root) = some (.file (.json (document (.str td) ids))))
    (hname : IsServiceName td name) (hkey : s.tree.get (keyPath root name) = none)
    (hid : s.tree.get (idPath root name) ≠ some .dir)
    (hpass : s.tree.Passable (serviceDir root name)) :
    EndsInWrite supply root (addServiceWith kit root name) s := by
  obtain ⟨b, hb, hread⟩ := readBundle_completes hroot lawful supply hdoc
  obtain ⟨id, hparse⟩ := hname
  have hplain : PlainPath (splitSlash name) := plain_of_isServiceName ⟨id, hparse⟩
  have hdirPlain := plainPath_serviceDir hroot hplain
  unfold addServiceWith
  refine .of_leadsTo (Prog.leadsTo_bind hread) ?_
  refine .of_leadsTo (Prog.leadsTo_lift_bind _ _ ((lawful.parseId_ok _ _).mpr (hb.text ▸ hparse))) ?_
  dsimp only
  rw [join_service lawful hroot hplain, join_key lawful hroot hplain]
  refine .of_leadsTo (present_leadsTo (plainPath_keyPath hroot hplain) s _) ?_
  rw [hkey, Option.isSome_none, if_neg Bool.false_ne_true]
  unfold provisionWith
  rw [join_key lawful hroot hplain, join_id lawful hroot hplain]
  refine .of_leadsTo (mkdirs_leadsTo hdirPlain hpass _) ?_
  refine .of_leadsTo (generateKey_leadsTo _ _) ?_
  -- the directory is there, without a key in it
  obtain ⟨hgrown, hdir⟩ := Volume.mkdirs_spec hdirPlain s.tree
  have hthere := hdir ((Volume.mkdirs_ok_iff hdirPlain s.tree).mpr hpass)
  have hputKey : (s.tree.mkdirs (serviceDir root name)).2.Puttable (keyPath root name) := by
    refine Volume.puttable_child hthere ?_
    rw [← hkey]
    exact Volume.Grown.get_off_path hgrown not_on_way_of_append
  refine .of_leadsTo (writeKey_leadsTo (plainPath_keyPath hroot hplain) hputKey _) ?_
  have hputId : ∀ key : Content, ((s.tree.mkdirs (serviceDir root name)).2.put (keyPath root name)
      (.file key)).Puttable (idPath root name) := by
    intro key
    refine ⟨by simp [idPath], ?_, fun hd => hid ?_⟩
    · rw [Volume.isDir_iff, idPath, List.dropLast_concat, Volume.get_put hputKey, if_neg, hthere]
      simp [keyPath]
    · rw [Volume.isDir_iff, Volume.get_put hputKey, if_neg (idPath_ne_keyPath root name name)] at hd
      rw [← hd]
      exact (Volume.Grown.get_off_path hgrown not_on_way_of_append).symm
  refine .of_leadsTo (write_leadsTo (plainPath_idPath hroot hplain) (hputId _) _) ?_
  obtain ⟨k, hk, -, -⟩ := lawful.publicJwk_ok (supply s.generated)
  refine .of_leadsTo (Prog.leadsTo_lift_bind _ _ hk) ?_
  rw [setKeysWith, join_bundle lawful hroot]
  refine .bind_pure (writeBundle_endsInWrite hroot ?_ (hb.serialise _)) (fun _ => id)
  refine Volume.puttable_of_file (c := .json (document (.str td) ids)) ?_
  dsimp only
  rw [Volume.get_put (hputId _), if_neg (idPath_ne_bundlePath root name).symm,
    Volume.get_put hputKey, if_neg (keyPath_ne_bundlePath root name).symm]
  exact hgrown.of_some hdoc

/-- Where the key is there already, nothing is done. -/
theorem addService_kept {s : Disk} {td name : String} {ids : Identities}
    (hdoc : s.tree.get (bundlePath root) = some (.file (.json (document (.str td) ids))))
    (hname : IsServiceName td name) {n : Node Content} (hkey : s.tree.get (keyPath root name) = some n) :
    ∃ r, (addServiceWith kit root name).Returns (Disk.semantics supply) s r s := by
  obtain ⟨b, hb, hread⟩ := readBundle_completes hroot lawful supply hdoc
  obtain ⟨id, hparse⟩ := hname
  have hplain : PlainPath (splitSlash name) := plain_of_isServiceName ⟨id, hparse⟩
  refine ⟨id, ?_⟩
  unfold addServiceWith
  refine (Prog.leadsTo_bind hread).returns ?_
  refine (Prog.leadsTo_lift_bind _ _ ((lawful.parseId_ok _ _).mpr (hb.text ▸ hparse))).returns ?_
  dsimp only
  rw [join_service lawful hroot hplain, join_key lawful hroot hplain]
  refine (present_leadsTo (plainPath_keyPath hroot hplain) s _).returns ?_
  rw [hkey, Option.isSome_some, if_pos rfl]
  exact Prog.returns_pure.mpr ⟨rfl, rfl⟩

theorem rotateService_endsInWrite {s : Disk} {td name : String} {ids : Identities}
    (hdoc : s.tree.get (bundlePath root) = some (.file (.json (document (.str td) ids))))
    (hname : IsServiceName td name) {c : Content} (hkey : s.tree.get (keyPath root name) = some (.file c))
    (hold : ∀ keys, ids.lookup (serviceId td name) = some keys →
      ∃ qs : List Point, keys = qs.map fun q => .obj (q.jwk sha256)) (keepOld : Bool) :
    EndsInWrite supply root (rotateServiceWith kit root name keepOld) s := by
  obtain ⟨b, hb, hread⟩ := readBundle_completes hroot lawful supply hdoc
  obtain ⟨id, hparse⟩ := hname
  have hplain : PlainPath (splitSlash name) := plain_of_isServiceName ⟨id, hparse⟩
  have hstr := toString_of_parse hparse
  unfold rotateServiceWith
  refine .of_leadsTo (Prog.leadsTo_bind hread) ?_
  refine .of_leadsTo (Prog.leadsTo_lift_bind _ _ ((lawful.parseId_ok _ _).mpr (hb.text ▸ hparse))) ?_
  dsimp only
  rw [join_service_key lawful hroot hplain]
  refine .of_leadsTo (present_leadsTo (plainPath_keyPath hroot hplain) s _) ?_
  rw [hkey, Option.isSome_some, if_pos rfl]
  unfold renewWith
  refine .of_leadsTo (generateKey_leadsTo _ _) ?_
  obtain ⟨k, hk, -, hothers⟩ := lawful.publicJwk_ok (supply s.generated)
  refine .of_leadsTo (Prog.leadsTo_lift_bind _ _ hk) ?_
  -- what is kept was derived from keys
  have hexisting : ∃ qs : List Point,
      (if keepOld then (b.identities.lookup id.toString).getD [] else []) =
        qs.map fun q => .obj (q.jwk sha256) := by
    cases keepOld with
    | false => exact ⟨[], rfl⟩
    | true =>
      cases hlook : b.identities.lookup id.toString with
      | none => exact ⟨[], rfl⟩
      | some keys =>
        rw [hb.lookup, hstr] at hlook
        exact hold keys (lookup_of_readBack hlook).1
  obtain ⟨qs, hqs⟩ := hexisting
  dsimp only
  rw [hqs]
  refine .of_leadsTo (Prog.leadsTo_lift_bind _ _ (hothers qs)) ?_
  have hput := Volume.puttable_of_file hkey
  refine .of_leadsTo (writeKey_leadsTo (s := { s with generated := s.generated + 1 })
    (plainPath_keyPath hroot hplain) hput _) ?_
  rw [setKeysWith, join_bundle lawful hroot]
  refine .bind_pure (writeBundle_endsInWrite hroot ?_ (hb.serialise _)) (fun _ => id)
  refine Volume.puttable_of_file (c := .json (document (.str td) ids)) ?_
  dsimp only
  rw [Volume.get_put hput, if_neg (keyPath_ne_bundlePath root name).symm]
  exact hdoc

end

end Spiffile
