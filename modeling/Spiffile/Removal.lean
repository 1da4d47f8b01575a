import Spiffile.Completion
import Spiffile.Runs

/-!
# Removing a service

`remove_service` takes a name as it stands. Its ID is looked up by that text,
its files by a path that joining normalises, and the two need not agree. This
module says what a removal takes from the tree, and when that is right.
-/

namespace Spiffile

open FileTree

/-! ### What a removal takes -/

/-- A directory with the two files of a service at most. -/
structure Py.Removable (t : Volume Content) (d : PathName) : Prop where
  ne_root : d ≠ []
  id : t.get (d ++ [idFilename]) ≠ some .dir
  key : t.get (d ++ [keyFilename]) ≠ some .dir
  rest : ∀ q, q ≠ [] → q ≠ [idFilename] → q ≠ [keyFilename] → t.get (d ++ q) = none

/-- The two files in turn, up to a directory in their place, and the directory
last. -/
def Py.Takes (t : Volume Content) (d q : PathName) : Prop :=
  q = d ++ [idFilename] ∧ t.get (d ++ [idFilename]) ≠ some .dir ∨
    q = d ++ [keyFilename] ∧ t.get (d ++ [idFilename]) ≠ some .dir ∧
      t.get (d ++ [keyFilename]) ≠ some .dir ∨
    q = d ∧ Py.Removable t d

namespace Impl

def join : Impl → PathName → List String → PathName
  | python => Py.join
  | typescript => Ts.join
  | go => Go.join

def lenient (rt : Runtime) : Impl → Bool
  | typescript => rt.lenient
  | _ => false

/-- The removal of the path `p` takes the node at `q`. -/
def Takes (t : Volume Content) (p q : PathName) : Impl → Prop
  | python => ∃ d, t.stat p = .ok (d, .dir) ∧ Py.Takes t d q
  | _ => ∃ d n, t.stat p = .ok (d, n) ∧ d <+: q ∧ q ≠ []

/-- The removal of the path `p` ends without an error. -/
def Completes (rt : Runtime) (t : Volume Content) (p : PathName) (impl : Impl) : Prop :=
  t.stat p = .error .noent ∨
    match impl with
    | python => ∃ d, t.stat p = .ok (d, .dir) ∧ Py.Removable t d
    | _ => t.stat p = .error .notDir ∧ impl.lenient rt = true ∨ ∃ d n, t.stat p = .ok (d, n) ∧ d ≠ []

end Impl

section

variable {t u : Volume Content} (h : Volume.SameShape t u)

include h

theorem Py.removable_congr (d : PathName) : Removable t d ↔ Removable u d := by
  have hmp : ∀ {t u : Volume Content}, Volume.SameShape t u → Removable t d → Removable u d := by
    intro t u h hr
    exact ⟨hr.ne_root, fun hd => hr.id ((h _).1.mpr hd), fun hd => hr.key ((h _).1.mpr hd),
      fun q h1 h2 h3 => (h _).2.mp (hr.rest q h1 h2 h3)⟩
  exact ⟨hmp h, hmp h.symm⟩

theorem Impl.takes_congr (p q : PathName) (impl : Impl) : impl.Takes t p q ↔ impl.Takes u p q := by
  have hlong : (∃ d n, t.stat p = .ok (d, n) ∧ d <+: q ∧ q ≠ []) ↔
      ∃ d n, u.stat p = .ok (d, n) ∧ d <+: q ∧ q ≠ [] := by
    refine exists_congr fun d => ?_
    rw [exists_and_right, exists_and_right, h.stat_ok_iff]
  cases impl with
  | python =>
    refine exists_congr fun d => and_congr (h.stat_dir_iff p d) ?_
    unfold Py.Takes
    rw [ne_eq, ne_eq, ne_eq, ne_eq, (h _).1, (h _).1, Py.removable_congr h]
  | typescript => exact hlong
  | go => exact hlong

theorem Impl.completes_congr (rt : Runtime) (p : PathName) (impl : Impl) :
    impl.Completes rt t p ↔ impl.Completes rt u p := by
  have hlong : (t.stat p = .error .notDir ∧ impl.lenient rt = true ∨
      ∃ d n, t.stat p = .ok (d, n) ∧ d ≠ []) ↔
      (u.stat p = .error .notDir ∧ impl.lenient rt = true ∨
        ∃ d n, u.stat p = .ok (d, n) ∧ d ≠ []) := by
    refine or_congr (and_congr_left fun _ => h.stat_error_iff p .notDir) (exists_congr fun d => ?_)
    rw [exists_and_right, exists_and_right, h.stat_ok_iff]
  refine or_congr (h.stat_error_iff p .noent) ?_
  cases impl with
  | python =>
    exact exists_congr fun d => and_congr (h.stat_dir_iff p d) (Py.removable_congr h d)
  | typescript => exact hlong
  | go => exact hlong

end

/-- The nodes that are taken are gone, the others as they were. -/
structure Removed (takes : PathName → Prop) (s t : Disk) : Prop where
  generated : t.generated = s.generated
  taken : ∀ q, takes q → t.tree.get q = none
  left : ∀ q, ¬ takes q → t.tree.get q = s.tree.get q

section

theorem py_join_singleton {base : PathName} {name : String} (hname : Volume.Plain name)
    (hsplit : splitSlash name = [name]) : Py.join base [name] = base ++ [name] := by
  rw [py_join_plain, List.flatMap_singleton, hsplit]
  intro part hpart n hn
  rw [List.mem_singleton.mp hpart, hsplit] at hn
  exact List.mem_singleton.mp hn ▸ hname

variable (supply : ℕ → Point)

theorem unlinkMissingOk_run (p : PathName) (s : Disk) :
    (Py.unlinkMissingOk p).run (Disk.semantics supply) s =
      match s.tree.stat p with
      | .ok (q, .file _) => (.ok (), { s with tree := s.tree.erase q })
      | .ok (_, .dir) => (.error (Py.raised .isDir), s)
      | .error .noent => (.ok (), s)
      | .error e => (.error (Py.raised e), s) := by
  have hstep : (Disk.semantics supply).step (.unlink p) s =
      ((s.tree.unlink p).1, { s with tree := (s.tree.unlink p).2 }) := rfl
  unfold Py.unlinkMissingOk unlink
  rw [Prog.run_bind, Prog.run_exec, hstep]
  unfold Volume.unlink
  cases s.tree.stat p with
  | error e => cases e <;> rfl
  | ok x =>
    obtain ⟨q, n⟩ := x
    cases n <;> rfl

/-- One of the two files, in a directory. -/
theorem unlinkMissingOk_at {p d : PathName} {s : Disk} (hstat : s.tree.stat p = .ok (d, .dir))
    {name : String} (hname : Volume.Plain name) :
    (s.tree.get (d ++ [name]) = some .dir ∧
      (Py.unlinkMissingOk (p ++ [name])).run (Disk.semantics supply) s =
        (.error (Py.raised .isDir), s)) ∨
    (s.tree.get (d ++ [name]) ≠ some .dir ∧
      ∃ t, (Py.unlinkMissingOk (p ++ [name])).run (Disk.semantics supply) s = (.ok (), t) ∧
        t.generated = s.generated ∧
        ∀ q, t.tree.get q = if q = d ++ [name] then none else s.tree.get q) := by
  rw [unlinkMissingOk_run, Volume.stat_append _ _ hname, hstat]
  dsimp only
  cases hget : s.tree.get (d ++ [name]) with
  | none =>
    refine Or.inr ⟨by simp, s, rfl, rfl, fun q => ?_⟩
    split_ifs with hq
    · rw [hq, hget]
    · rfl
  | some n =>
    cases n with
    | dir => exact Or.inl ⟨rfl, rfl⟩
    | file c => exact Or.inr ⟨by simp, _, rfl, rfl, fun q => Volume.get_erase_file hget q⟩

/-- Without a file the directories are the same. -/
theorem stat_of_erased {s t : Disk} {p d r : PathName} (hstat : s.tree.stat p = .ok (d, .dir))
    (hr : s.tree.get r ≠ some .dir)
    (ht : ∀ q, t.tree.get q = if q = r then none else s.tree.get q) :
    t.tree.stat p = .ok (d, .dir) := by
  refine Volume.stat_mono (fun q hq => ?_) hstat
  rw [ht, if_neg, hq]
  rintro rfl
  exact hr hq

theorem rmdir_run (p : PathName) (s : Disk) :
    (do
      if ← present p then
        let done ← rmdir p
        check Py.raised done : Prog Cmd Ans Py.Exn Unit).run (Disk.semantics supply) s =
      match s.tree.stat p with
      | .error _ => (.ok (), s)
      | .ok _ => ((s.tree.rmdir p).1.mapError Py.raised, { s with tree := (s.tree.rmdir p).2 }) := by
  have hstep : (Disk.semantics supply).step (.present p) s = (s.tree.present p, s) := rfl
  unfold present
  rw [Prog.run_bind, Prog.run_exec, hstep]
  unfold Volume.present
  cases s.tree.stat p with
  | error e => rfl
  | ok x => rfl

/-- Nothing is taken. -/
theorem Removed.refl {takes : PathName → Prop} {s : Disk} (h : ∀ q, takes q → s.tree.get q = none) :
    Removed takes s s := ⟨rfl, h, fun _ _ => rfl⟩

/-- Once its two files are gone, a directory that can be removed is empty. -/
theorem removable_iff {s t : Volume Content} {d : PathName}
    (hid : s.get (d ++ [idFilename]) ≠ some .dir) (hkey : s.get (d ++ [keyFilename]) ≠ some .dir)
    (ht : ∀ q, t.get q = if q = d ++ [keyFilename] ∨ q = d ++ [idFilename] then none else s.get q) :
    Py.Removable s d ↔ d ≠ [] ∧ t.Bare d := by
  rw [Volume.bare_iff]
  constructor
  · refine fun h => ⟨h.ne_root, fun q hq => ?_⟩
    rw [ht]
    split_ifs with hfile
    · rfl
    · simp only [List.append_cancel_left_eq, not_or] at hfile
      exact h.rest q hq hfile.2 hfile.1
  · rintro ⟨hne, hbare⟩
    refine ⟨hne, hid, hkey, fun q hq hqid hqkey => ?_⟩
    have hnone := hbare q hq
    rwa [ht, if_neg (by simp [hqid, hqkey])] at hnone

/-- The directory, once its two files are gone. -/
theorem rmdir_taken {s u : Disk} {p d : PathName} (hid : s.tree.get (d ++ [idFilename]) ≠ some .dir)
    (hkey : s.tree.get (d ++ [keyFilename]) ≠ some .dir) (hstat : u.tree.stat p = .ok (d, .dir))
    (hgen : u.generated = s.generated)
    (hboth : ∀ q, u.tree.get q =
      if q = d ++ [keyFilename] ∨ q = d ++ [idFilename] then none else s.tree.get q) :
    ∃ r t, (do
        if ← present p then
          let done ← rmdir p
          check Py.raised done : Prog Cmd Ans Py.Exn Unit).run (Disk.semantics supply) u = (r, t) ∧
      (r.isOk = true ↔ Py.Removable s.tree d) ∧ Removed (Py.Takes s.tree d) s t := by
  have hremovable := removable_iff hid hkey hboth
  have hgone : ∀ q, q = d ++ [idFilename] ∨ q = d ++ [keyFilename] → u.tree.get q = none :=
    fun q hq => by rw [hboth, if_pos hq.symm]
  rw [rmdir_run, hstat]
  dsimp only
  unfold Volume.rmdir
  rw [hstat]
  dsimp only
  by_cases hrem : Py.Removable s.tree d
  · obtain ⟨hne, hbare⟩ := hremovable.mp hrem
    rw [if_neg hne, if_pos hbare]
    have herase := Volume.get_erase_bare hne hbare
    refine ⟨_, _, rfl, by simpa [Except.isOk, Except.toBool, Except.mapError] using hrem, hgen,
      fun q hq => ?_, fun q hq => ?_⟩
    · dsimp only
      rw [herase]
      split_ifs with hqd
      · rfl
      · rcases hq with ⟨hq, -⟩ | ⟨hq, -⟩ | ⟨hq, -⟩
        · exact hgone q (Or.inl hq)
        · exact hgone q (Or.inr hq)
        · exact absurd hq hqd
    · dsimp only
      rw [herase, if_neg fun h => hq (Or.inr (Or.inr ⟨h, hrem⟩)), hboth, if_neg]
      rintro (h | h)
      · exact hq (Or.inr (Or.inl ⟨h, hid, hkey⟩))
      · exact hq (Or.inl ⟨h, hid⟩)
  · -- something else is in the directory, or it is the root
    have hfail : ∃ e, (if d = [] then (Except.error Errno.busy, u.tree)
        else if u.tree.Bare d then (.ok (), u.tree.erase d) else (.error .notEmpty, u.tree)) =
        ((.error e : Except Errno Unit), u.tree) := by
      split_ifs with hnil hbare
      · exact ⟨_, rfl⟩
      · exact absurd (hremovable.mpr ⟨hnil, hbare⟩) hrem
      · exact ⟨_, rfl⟩
    obtain ⟨e, he⟩ := hfail
    rw [he]
    refine ⟨_, _, rfl, by simpa [Except.isOk, Except.toBool, Except.mapError] using hrem, hgen,
      fun q hq => ?_, fun q hq => ?_⟩
    · rcases hq with ⟨hq, -⟩ | ⟨hq, -⟩ | ⟨-, h⟩
      · exact hgone q (Or.inl hq)
      · exact hgone q (Or.inr hq)
      · exact absurd h hrem
    · dsimp only
      rw [hboth, if_neg]
      rintro (h | h)
      · exact hq (Or.inr (Or.inl ⟨h, hid, hkey⟩))
      · exact hq (Or.inl ⟨h, hid⟩)

/-- The files one after the other, each leaving the directories alone. -/
theorem py_removeFiles_dir {p d : PathName} {s : Disk} (hstat : s.tree.stat p = .ok (d, .dir)) :
    ∃ r t, (Py.removeFiles p).run (Disk.semantics supply) s = (r, t) ∧
      (r.isOk = true ↔ Py.Removable s.tree d) ∧ Removed (Py.Takes s.tree d) s t := by
  unfold Py.removeFiles
  rw [py_join_singleton plain_idFilename splitSlash_idFilename,
    py_join_singleton plain_keyFilename splitSlash_keyFilename, Prog.run_bind]
  obtain ⟨hid, hrun⟩ | ⟨hid, t, hrun, hgen, hnodes⟩ :=
    unlinkMissingOk_at supply hstat plain_idFilename
  · refine ⟨_, s, by rw [hrun], by simp [Except.isOk, Except.toBool]; exact fun h => h.id hid, ?_⟩
    refine Removed.refl fun q hq => ?_
    rcases hq with ⟨-, h⟩ | ⟨-, h, -⟩ | ⟨-, h⟩
    · exact absurd hid h
    · exact absurd hid h
    · exact absurd hid h.id
  have hstat' := stat_of_erased hstat hid hnodes
  have hkey' : t.tree.get (d ++ [keyFilename]) = s.tree.get (d ++ [keyFilename]) := by
    rw [hnodes, if_neg]
    simpa using (by decide : keyFilename ≠ idFilename)
  rw [hrun]
  dsimp only
  rw [Prog.run_bind]
  obtain ⟨hkey, hrun'⟩ | ⟨hkey, u, hrun', hgen', hnodes'⟩ :=
    unlinkMissingOk_at supply hstat' plain_keyFilename
  · rw [hkey'] at hkey
    refine ⟨_, t, by rw [hrun'], ?_, hgen, fun q hq => ?_, fun q hq => ?_⟩
    · simp only [Except.isOk, Except.toBool, Bool.false_eq_true, false_iff]
      exact fun h => h.key hkey
    · rcases hq with ⟨rfl, -⟩ | ⟨-, -, h⟩ | ⟨-, h⟩
      · rw [hnodes, if_pos rfl]
      · exact absurd hkey h
      · exact absurd hkey h.key
    · rw [hnodes, if_neg fun h => hq (Or.inl ⟨h, hid⟩)]
  have hstat'' := stat_of_erased hstat' hkey hnodes'
  rw [hkey'] at hkey
  rw [hrun']
  refine rmdir_taken supply hid hkey hstat'' (hgen'.trans hgen) fun q => ?_
  rw [hnodes', hnodes]
  by_cases h1 : q = d ++ [keyFilename] <;> by_cases h2 : q = d ++ [idFilename] <;> simp [h1, h2]

/-- What Python's removal comes to, whatever the path. -/
theorem py_removeFiles_run (rt : Runtime) (p : PathName) (s : Disk) :
    ∃ r t, (Py.removeFiles p).run (Disk.semantics supply) s = (r, t) ∧
      (r.isOk = true ↔ Impl.python.Completes rt s.tree p) ∧
      Removed (fun q => Impl.python.Takes s.tree p q) s t := by
  rcases hstat : s.tree.stat p with e | ⟨d, n⟩
  · have hnone : Removed (fun q => Impl.python.Takes s.tree p q) s s :=
      Removed.refl fun q hq => by simp [Impl.Takes, hstat] at hq
    unfold Py.removeFiles
    rw [py_join_singleton plain_idFilename splitSlash_idFilename,
      py_join_singleton plain_keyFilename splitSlash_keyFilename, Prog.run_bind]
    by_cases he : e = .noent
    · subst he
      refine ⟨.ok (), s, ?_, by simp [Impl.Completes, hstat, Except.isOk, Except.toBool], hnone⟩
      rw [unlinkMissingOk_run, Volume.stat_append _ _ plain_idFilename, hstat]
      dsimp only
      rw [Prog.run_bind, unlinkMissingOk_run, Volume.stat_append _ _ plain_keyFilename, hstat]
      dsimp only
      rw [rmdir_run, hstat]
    · refine ⟨.error (Py.raised e), s, ?_, ?_, hnone⟩
      · rw [unlinkMissingOk_run, Volume.stat_append _ _ plain_idFilename, hstat]
        cases e <;> first | rfl | exact absurd rfl he
      · simp [Impl.Completes, hstat, he, Except.isOk, Except.toBool]
  · cases n with
    | file c =>
      unfold Py.removeFiles
      rw [py_join_singleton plain_idFilename splitSlash_idFilename, Prog.run_bind]
      refine ⟨.error (Py.raised .notDir), s, ?_, ?_, Removed.refl fun q hq => ?_⟩
      · rw [unlinkMissingOk_run, Volume.stat_append _ _ plain_idFilename, hstat]
      · simp [Impl.Completes, hstat, Except.isOk, Except.toBool]
      · simp [Impl.Takes, hstat] at hq
    | dir =>
      have htakes : ∀ q, Impl.python.Takes s.tree p q ↔ Py.Takes s.tree d q := by
        simp [Impl.Takes, hstat]
      have hcompletes : Impl.python.Completes rt s.tree p ↔ Py.Removable s.tree d := by
        simp [Impl.Completes, hstat]
      simp only [htakes, hcompletes]
      exact py_removeFiles_dir supply hstat

/-- One recursive removal. -/
theorem removeAll_run {ε : Type} (raised : Errno → ε) (lenient : Bool) (p : PathName) (s : Disk) :
    ∃ r t, (do
        let done ← removeAll p lenient
        check raised done : Prog Cmd Ans ε Unit).run (Disk.semantics supply) s = (r, t) ∧
      (r.isOk = true ↔ s.tree.stat p = .error .noent ∨ s.tree.stat p = .error .notDir ∧ lenient = true ∨
        ∃ d n, s.tree.stat p = .ok (d, n) ∧ d ≠ []) ∧
      Removed (fun q => ∃ d n, s.tree.stat p = .ok (d, n) ∧ d <+: q ∧ q ≠ []) s t := by
  refine ⟨(s.tree.removeAll p lenient).1.mapError raised,
    { s with tree := (s.tree.removeAll p lenient).2 }, rfl, ?_, rfl, ?_, ?_⟩
  · unfold Volume.removeAll
    rcases s.tree.stat p with e | ⟨d, n⟩
    · cases e <;> cases lenient <;> simp [Except.isOk, Except.toBool, Except.mapError]
    · by_cases hd : d = [] <;> simp [hd, Except.isOk, Except.toBool, Except.mapError]
  · rintro q ⟨d, n, hstat, hq⟩
    unfold Volume.removeAll
    rw [hstat]
    exact (Volume.get_erase _ _ _).trans (if_pos hq)
  · intro q hq
    dsimp only
    rcases s.tree.removeAll_cases p lenient with h | ⟨d, n, hstat, h⟩
    · rw [h]
    · rw [h, Volume.get_erase, if_neg fun hd => hq ⟨d, n, hstat, hd⟩]

/-- What the recursive removal comes to in TypeScript. -/
theorem ts_removeFiles_run (rt : Runtime) (p : PathName) (s : Disk) :
    ∃ r t, (Ts.removeFiles rt p).run (Disk.semantics supply) s = (r, t) ∧
      (r.isOk = true ↔ Impl.typescript.Completes rt s.tree p) ∧
      Removed (fun q => Impl.typescript.Takes s.tree p q) s t :=
  removeAll_run supply Ts.raised rt.lenient p s

theorem go_removeFiles_run (rt : Runtime) (p : PathName) (s : Disk) :
    ∃ r t, (Go.removeFiles p).run (Disk.semantics supply) s = (r, t) ∧
      (r.isOk = true ↔ Impl.go.Completes rt s.tree p) ∧
      Removed (fun q => Impl.go.Takes s.tree p q) s t :=
  removeAll_run supply (fun _ => Go.Err.os) false p s

end

/-! ### What a call comes to -/

section

variable {ε τ κ : Type} {kit : Kit ε τ κ} {sha256 : Hash} (supply : ℕ → Point) {root : PathName}
  (hroot : PlainPath root) (lawful : kit.Lawful sha256)

include hroot lawful

/-- The bundle loses the ID, then the files go. -/
theorem removeService_run {s : Disk} {td : String} {ids : Identities}
    (hdoc : s.tree.get (bundlePath root) = some (.file (.json (document (.str td) ids))))
    (removeFiles : PathName → Prog Cmd Ans ε Unit) (name : String) :
    ∃ ids' : Identities,
      (∀ id, ids'.lookup id = if id = serviceId td name then none else readBack td ids id) ∧
      (removeServiceWith kit removeFiles root name).run (Disk.semantics supply) s =
        (removeFiles (kit.join root [servicesDirname, name])).run (Disk.semantics supply)
          { s with tree := s.tree.put (bundlePath root) (.file (.json (document (.str td) ids'))) } := by
  obtain ⟨b, ⟨htext, hser, hlookup⟩, hread⟩ := readBundle_completes hroot lawful supply hdoc
  refine ⟨b.identities.erase (serviceId td name), fun id => ?_, ?_⟩
  · split_ifs with hid
    · rw [hid, AList.lookup_erase]
    · rw [AList.lookup_erase_ne hid, hlookup]
  · have hwrite : (writeBundleWith kit (bundlePath root)
        ⟨b.trustDomain, b.identities.erase (serviceId td name)⟩).Returns (Disk.semantics supply) s ()
          (s.withBundle root (.json (kit.serialise
            ⟨b.trustDomain, b.identities.erase (serviceId td name)⟩))) :=
      writeBundle_completes hroot (Volume.puttable_of_file hdoc)
    rw [hser, Disk.withBundle] at hwrite
    unfold removeServiceWith
    rw [Prog.run_bind, show _ = _ from hread]
    dsimp only
    rw [Prog.run_bind, join_bundle lawful hroot, htext, show _ = _ from hwrite]

/-- Without a bundle nothing is changed. -/
theorem removeService_run_unread {s : Disk}
    (hnone : ∀ d b, s.tree.get (bundlePath root) = some (.file (.json d)) →
      kit.parseBundle (kit.file (.ok (.json d))) ≠ .ok b)
    (removeFiles : PathName → Prog Cmd Ans ε Unit) (name : String) :
    ∃ e, (removeServiceWith kit removeFiles root name).run (Disk.semantics supply) s = (.error e, s) := by
  have hparse : ∃ e, kit.parseBundle (kit.file (s.tree.read (bundlePath root))) = .error e := by
    cases hb : kit.parseBundle (kit.file (s.tree.read (bundlePath root))) with
    | error e => exact ⟨e, rfl⟩
    | ok b =>
      obtain ⟨d, hd⟩ := lawful.parse_ok _ _ hb
      rw [hd] at hb
      exact absurd hb (hnone d b ((Volume.read_plain_eq_ok (plainPath_bundlePath hroot) _ _).mp hd))
  obtain ⟨e, he⟩ := hparse
  have hread : (readBundleWith kit root).run (Disk.semantics supply) s = (.error e, s) := by
    rw [readBundleWith, join_bundle lawful hroot, ← he]
    rfl
  exact ⟨e, by rw [removeServiceWith, Prog.run_bind, hread]⟩

end

section

variable (rt : Runtime) (supply : ℕ → Point) (root : PathName)

/-- Whether the call returns, and where it ends. -/
def Impl.outcome (call : Call) (s : Disk) : Impl → Bool × Disk
  | python =>
    let r := (Py.perform rt root call).run (Disk.semantics supply) s
    (r.1.isOk, r.2)
  | typescript =>
    let r := (Ts.perform rt root call).run (Disk.semantics supply) s
    (r.1.isOk, r.2)
  | go =>
    let r := (Go.perform rt root call).run (Disk.semantics supply) s
    (r.1.isOk, r.2)

/-- Where a removal from a bundle that lists `ids` ends. -/
structure Impl.Ending (td : String) (ids : Identities) (name : String) (s : Disk) (impl : Impl)
    (ok : Bool) (t : Disk) : Prop where
  ok_iff : ok = true ↔ impl.Completes rt s.tree (impl.join root [servicesDirname, name])
  generated : t.generated = s.generated
  taken : ∀ q, impl.Takes s.tree (impl.join root [servicesDirname, name]) q → t.tree.get q = none
  left : ∃ ids' : Identities,
    (∀ id, ids'.lookup id = if id = serviceId td name then none else readBack td ids id) ∧
      ∀ q, ¬ impl.Takes s.tree (impl.join root [servicesDirname, name]) q → t.tree.get q =
        if q = bundlePath root then some (.file (.json (document (.str td) ids')))
        else s.tree.get q

variable {rt supply root} (hroot : PlainPath root)

include hroot

theorem ending_of_run {ε τ κ : Type} {kit : Kit ε τ κ} {sha256 : Hash} (lawful : kit.Lawful sha256)
    {removeFiles : PathName → Prog Cmd Ans ε Unit} {impl : Impl}
    (hfiles : ∀ p s, ∃ r t, (removeFiles p).run (Disk.semantics supply) s = (r, t) ∧
      (r.isOk = true ↔ impl.Completes rt s.tree p) ∧ Removed (fun q => impl.Takes s.tree p q) s t)
    (hjoin : kit.join = impl.join) {s : Disk} {td : String} {ids : Identities}
    (hdoc : s.tree.get (bundlePath root) = some (.file (.json (document (.str td) ids))))
    (name : String) :
    ∃ r t, (removeServiceWith kit removeFiles root name).run (Disk.semantics supply) s = (r, t) ∧
      impl.Ending rt root td ids name s r.isOk t := by
  obtain ⟨ids', hlookup, hrun⟩ := removeService_run supply hroot lawful hdoc removeFiles name
  have hput := Volume.puttable_of_file hdoc
  have hshape : Volume.SameShape s.tree
      (s.tree.put (bundlePath root) (.file (.json (document (.str td) ids')))) :=
    Volume.sameShape_put hput hdoc
  obtain ⟨r, t, hremove, hok, hremoved⟩ := hfiles (kit.join root [servicesDirname, name])
    { s with tree := s.tree.put (bundlePath root) (.file (.json (document (.str td) ids'))) }
  refine ⟨r, t, hrun.trans hremove, ?_⟩
  rw [hjoin] at hok hremoved
  refine ⟨hok.trans (impl.completes_congr hshape rt _).symm, hremoved.generated,
    fun q hq => hremoved.taken q ((impl.takes_congr hshape _ q).mp hq), ids', hlookup, fun q hq => ?_⟩
  rw [hremoved.left q fun h => hq ((impl.takes_congr hshape _ q).mpr h)]
  exact Volume.get_put hput _ q

variable (rt supply)

theorem Impl.removeService_ending {s : Disk} {td : String} {ids : Identities}
    (hdoc : s.tree.get (bundlePath root) = some (.file (.json (document (.str td) ids))))
    (name : String) (impl : Impl) :
    ∃ ok t, impl.outcome rt supply root (.removeService name) s = (ok, t) ∧
      impl.Ending rt root td ids name s ok t := by
  cases impl with
  | python =>
    obtain ⟨r, t, hrun, hending⟩ := ending_of_run hroot (Py.kit_lawful rt)
      (py_removeFiles_run supply rt) rfl hdoc name
    exact ⟨r.isOk, t, by rw [Impl.outcome, Py.perform, Py.removeService, hrun], hending⟩
  | typescript =>
    obtain ⟨r, t, hrun, hending⟩ := ending_of_run hroot (Ts.kit_lawful rt)
      (ts_removeFiles_run supply rt) rfl hdoc name
    exact ⟨r.isOk, t, by rw [Impl.outcome, Ts.perform, Ts.removeService, hrun], hending⟩
  | go =>
    obtain ⟨r, t, hrun, hending⟩ := ending_of_run hroot (Go.kit_lawful rt)
      (go_removeFiles_run supply rt) rfl hdoc name
    exact ⟨r.isOk, t, by rw [Impl.outcome, Go.perform, Go.removeService, hrun], hending⟩

end

/-! ### When a removal is right -/

section

variable (rt : Runtime) (supply : ℕ → Point) (root : PathName)

/-- The call deleted no key but that of the service with exactly this name, the
service is unbound, and nothing else is different. -/
structure RemovedExactly (impl : Impl) (td name : String) (s t : Disk) : Prop where
  keys : ∀ q p, s.tree.get q = some (.file (.key p)) → t.tree.get q = none →
    IsServiceName td name ∧ q = keyPath root name
  unbound : ∀ reader : Impl, reader.bound (bundleFile root t) (serviceId td name) = none
  others : ∀ m, m ≠ name → IsServiceName td m →
    t.tree.get (idPath root m) = s.tree.get (idPath root m) ∧
      t.tree.get (keyPath root m) = s.tree.get (keyPath root m)
  domain : trustDomainAt root t = some td
  entries : ∀ (reader : Impl) id, id ≠ serviceId td name →
    reader.bound (bundleFile root t) id = reader.bound (bundleFile root s) id
  outside : ∀ q, q ≠ bundlePath root → t.tree.get q ≠ s.tree.get q →
    ∃ d n, s.tree.stat (impl.join root [servicesDirname, name]) = .ok (d, n) ∧ d <+: q

/-- Every node but the bundle's is the same, and the bundle reads the same. -/
structure Unchanged (s t : Disk) : Prop where
  nodes : ∀ q, q ≠ bundlePath root → t.tree.get q = s.tree.get q
  domain : trustDomainAt root t = trustDomainAt root s
  entries : ∀ (reader : Impl) id,
    reader.bound (bundleFile root t) id = reader.bound (bundleFile root s) id

/-- The call returns and has removed the service, or raises and has done nothing. -/
def Impl.RemovesService (name : String) (s : Disk) (impl : Impl) : Prop :=
  match impl.outcome rt supply root (.removeService name) s with
  | (true, t) => ∃ td, trustDomainAt root s = some td ∧ RemovedExactly root impl td name s t
  | (false, t) => Unchanged root s t

/-- A node that may go with the service. -/
structure Own (td name : String) (s : Disk) (q : PathName) : Prop where
  ne_bundle : q ≠ bundlePath root
  key : ∀ p, s.tree.get q = some (.file (.key p)) → IsServiceName td name ∧ q = keyPath root name
  other : s.tree.get q ≠ none → ∀ m, m ≠ name → IsServiceName td m →
    q ≠ idPath root m ∧ q ≠ keyPath root m

/-- What stands at the path can be removed, and is the service's own; or it
cannot, and there is neither a file to remove before nor an entry. -/
def Impl.Removable (td name : String) (s : Disk) (impl : Impl) : Prop :=
  let p := impl.join root [servicesDirname, name]
  impl.Completes rt s.tree p ∧ (∀ q, impl.Takes s.tree p q → Own root td name s q) ∨
    ¬ impl.Completes rt s.tree p ∧ (∀ q, impl.Takes s.tree p q → s.tree.get q = none) ∧
      ∀ reader : Impl, reader.bound (bundleFile root s) (serviceId td name) = none

end

section

variable {rt : Runtime} {supply : ℕ → Point} {root : PathName} (hroot : PlainPath root)

theorem Impl.Takes.stat {t : Volume Content} {p q : PathName} {impl : Impl} (h : impl.Takes t p q) :
    ∃ d n, t.stat p = .ok (d, n) ∧ d <+: q := by
  cases impl with
  | python =>
    obtain ⟨d, hstat, htakes⟩ := h
    refine ⟨d, .dir, hstat, ?_⟩
    rcases htakes with ⟨rfl, -⟩ | ⟨rfl, -⟩ | ⟨rfl, -⟩
    · exact List.prefix_append _ _
    · exact List.prefix_append _ _
    · exact List.prefix_refl _
  | typescript =>
    obtain ⟨d, n, hstat, hpre, -⟩ := h
    exact ⟨d, n, hstat, hpre⟩
  | go =>
    obtain ⟨d, n, hstat, hpre, -⟩ := h
    exact ⟨d, n, hstat, hpre⟩

include hroot

theorem trustDomainAt_none {s : Disk} (h : s.tree.get (bundlePath root) = none) :
    trustDomainAt root s = none := by
  have hread : ∃ e, s.tree.read (bundlePath root) = .error e := by
    cases hr : s.tree.read (bundlePath root) with
    | error e => exact ⟨e, rfl⟩
    | ok c =>
      rw [(Volume.read_plain_eq_ok (plainPath_bundlePath hroot) _ _).mp hr] at h
      cases h
  obtain ⟨e, he⟩ := hread
  rw [trustDomainAt, bundleFile, he]
  cases e <;> rfl

/-- What the readers find after a removal that leaves the bundle in its place. -/
theorem bound_of_left {s t : Disk} {td name : String} {ids ids' : Identities}
    (hs : s.tree.get (bundlePath root) = some (.file (.json (document (.str td) ids))))
    (ht : t.tree.get (bundlePath root) = some (.file (.json (document (.str td) ids'))))
    (hids : ∀ id, ids'.lookup id = if id = serviceId td name then none else readBack td ids id)
    (reader : Impl) (id : String) :
    reader.bound (bundleFile root t) id =
      if id = serviceId td name then none else reader.bound (bundleFile root s) id := by
  rw [bundleFile_of_get hroot hs, bundleFile_of_get hroot ht, bound_document, bound_document]
  by_cases hid : id = serviceId td name
  · simp [readBack, hids, hid]
  · simp only [readBack, hids, hid, if_false]
    split_ifs
    · cases ids.lookup id with
      | none => rfl
      | some keys => by_cases hkeys : keys = [] <;> simp [Option.filter, hkeys]
    · rfl

section

variable {s t : Disk} {td name : String} {ids : Identities} {impl : Impl} {ok : Bool}
  (hdoc : s.tree.get (bundlePath root) = some (.file (.json (document (.str td) ids))))
  (hend : impl.Ending rt root td ids name s ok t)

include hdoc hend

/-- The bundle file is taken, or it is the old one without the entry. -/
theorem Impl.Ending.bundle :
    impl.Takes s.tree (impl.join root [servicesDirname, name]) (bundlePath root) ∧
        trustDomainAt root t = none ∨
      ¬ impl.Takes s.tree (impl.join root [servicesDirname, name]) (bundlePath root) ∧
        trustDomainAt root t = some td ∧ ∀ (reader : Impl) id,
          reader.bound (bundleFile root t) id =
            if id = serviceId td name then none else reader.bound (bundleFile root s) id := by
  by_cases htakes : impl.Takes s.tree (impl.join root [servicesDirname, name]) (bundlePath root)
  · exact Or.inl ⟨htakes, trustDomainAt_none hroot (hend.taken _ htakes)⟩
  · obtain ⟨ids', hids, hleft⟩ := hend.left
    have ht := hleft _ htakes
    rw [if_pos rfl] at ht
    exact Or.inr ⟨htakes, trustDomainAt_document hroot ht, bound_of_left hroot hdoc ht hids⟩

omit hdoc hroot in
/-- Off the bundle, what is not taken is the same. -/
theorem Impl.Ending.same {q : PathName} (hq : q ≠ bundlePath root)
    (h : ¬ impl.Takes s.tree (impl.join root [servicesDirname, name]) q) :
    t.tree.get q = s.tree.get q := by
  obtain ⟨ids', -, hleft⟩ := hend.left
  rw [hleft q h, if_neg hq]

theorem Impl.Ending.removedExactly_iff :
    RemovedExactly root impl td name s t ↔
      ∀ q, impl.Takes s.tree (impl.join root [servicesDirname, name]) q → Own root td name s q := by
  constructor
  · intro h q hq
    have hgone := hend.taken q hq
    refine ⟨?_, fun p hp => h.keys q p hp hgone, fun hsome m hm hmname => ⟨?_, ?_⟩⟩
    · rintro rfl
      have hdomain := h.domain
      rw [trustDomainAt_none hroot hgone] at hdomain
      cases hdomain
    · rintro rfl
      exact hsome ((h.others m hm hmname).1 ▸ hgone)
    · rintro rfl
      exact hsome ((h.others m hm hmname).2 ▸ hgone)
  · intro h
    obtain ⟨htakes, -⟩ | ⟨-, hdomain, hbound⟩ := hend.bundle hroot hdoc
    · exact absurd rfl (h _ htakes).ne_bundle
    refine {
      keys := fun q p hp hgone => ?_
      unbound := fun reader => by rw [hbound, if_pos rfl]
      others := fun m hm hmname => ⟨?_, ?_⟩
      domain := hdomain
      entries := fun reader id hid => by rw [hbound, if_neg hid]
      outside := fun q hq hchanged => ?_ }
    · by_cases hq : impl.Takes s.tree (impl.join root [servicesDirname, name]) q
      · exact (h q hq).key p hp
      · have hne : q ≠ bundlePath root := by
          rintro rfl
          rw [hdoc] at hp
          cases hp
        rw [hend.same hne hq, hp] at hgone
        cases hgone
    · by_cases hq : impl.Takes s.tree (impl.join root [servicesDirname, name]) (idPath root m)
      · by_cases hsome : s.tree.get (idPath root m) = none
        · rw [hsome, hend.taken _ hq]
        · exact absurd rfl ((h _ hq).other hsome m hm hmname).1
      · exact hend.same (idPath_ne_bundlePath root m) hq
    · by_cases hq : impl.Takes s.tree (impl.join root [servicesDirname, name]) (keyPath root m)
      · by_cases hsome : s.tree.get (keyPath root m) = none
        · rw [hsome, hend.taken _ hq]
        · exact absurd rfl ((h _ hq).other hsome m hm hmname).2
      · exact hend.same (keyPath_ne_bundlePath root m) hq
    · by_contra hout
      exact hchanged (hend.same hq fun htakes => hout htakes.stat)

theorem Impl.Ending.unchanged_iff :
    Unchanged root s t ↔
      (∀ q, impl.Takes s.tree (impl.join root [servicesDirname, name]) q → s.tree.get q = none) ∧
        ∀ reader : Impl, reader.bound (bundleFile root s) (serviceId td name) = none := by
  have hsome := trustDomainAt_document hroot hdoc
  constructor
  · intro h
    obtain ⟨-, hnone⟩ | ⟨hleft, -, hbound⟩ := hend.bundle hroot hdoc
    · rw [h.domain, hsome] at hnone
      cases hnone
    refine ⟨fun q hq => ?_, fun reader => ?_⟩
    · have hne : q ≠ bundlePath root := by
        rintro rfl
        exact hleft hq
      rw [← h.nodes q hne, hend.taken q hq]
    · rw [← h.entries, hbound, if_pos rfl]
  · rintro ⟨hnothing, hunbound⟩
    obtain ⟨htakes, -⟩ | ⟨-, hdomain, hbound⟩ := hend.bundle hroot hdoc
    · rw [hnothing _ htakes] at hdoc
      cases hdoc
    refine ⟨fun q hq => ?_, hdomain.trans hsome.symm, fun reader id => ?_⟩
    · by_cases htakes : impl.Takes s.tree (impl.join root [servicesDirname, name]) q
      · rw [hend.taken q htakes, hnothing q htakes]
      · exact hend.same hq htakes
    · rw [hbound]
      split_ifs with hid
      · rw [hid, hunbound]
      · rfl

end

/-- Without a bundle the call raises at once. -/
theorem Impl.removeService_outcome_unread {s : Disk}
    (h : Sound rt.sha256 supply root (fun _ _ => True) 0 s) (hnone : trustDomainAt root s = none)
    (name : String) (impl : Impl) :
    impl.outcome rt supply root (.removeService name) s = (false, s) := by
  have hno : ∀ d, s.tree.get (bundlePath root) ≠ some (.file (.json d)) := by
    intro d hd
    obtain ⟨td, ids, rfl, -⟩ := h.written d hd
    rw [trustDomainAt_document hroot hd] at hnone
    cases hnone
  cases impl with
  | python =>
    obtain ⟨e, he⟩ := removeService_run_unread supply hroot (Py.kit_lawful rt)
      (fun d _ hd => absurd hd (hno d)) Py.removeFiles name
    rw [Impl.outcome, Py.perform, Py.removeService, he]
    rfl
  | typescript =>
    obtain ⟨e, he⟩ := removeService_run_unread supply hroot (Ts.kit_lawful rt)
      (fun d _ hd => absurd hd (hno d)) (Ts.removeFiles rt) name
    rw [Impl.outcome, Ts.perform, Ts.removeService, he]
    rfl
  | go =>
    obtain ⟨e, he⟩ := removeService_run_unread supply hroot (Go.kit_lawful rt)
      (fun d _ hd => absurd hd (hno d)) Go.removeFiles name
    rw [Impl.outcome, Go.perform, Go.removeService, he]
    rfl

end

/-- On every root that calls can reach and for every string, a removal does
what it should exactly if what stands at the joined path is the service's own,
or nothing of it can go. -/
theorem removes_service_iff (rt : Runtime) (supply : ℕ → Point) (root : PathName)
    (hroot : PlainPath root) (s₀ s : Disk) (hfresh : s₀.tree.get (bundlePath root) = none)
    (hrun : Run rt supply root s₀ s) (name : String) (impl : Impl) :
    impl.RemovesService rt supply root name s ↔
      ∀ td, trustDomainAt root s = some td → impl.Removable rt root td name s := by
  have h := (Sound.fresh hfresh).run hroot (fun _ _ _ => trivial) hrun
  cases htd : trustDomainAt root s with
  | none =>
    rw [Impl.RemovesService, impl.removeService_outcome_unread hroot h htd]
    exact iff_of_true ⟨fun _ _ => rfl, rfl, fun _ _ => rfl⟩ (by rintro _ ⟨⟩)
  | some td =>
    obtain ⟨ids, hdoc, -⟩ := doc_of_trustDomainAt hroot h htd
    obtain ⟨ok, t, hout, hend⟩ := impl.removeService_ending rt supply hroot hdoc name
    rw [Impl.RemovesService, hout]
    simp only [Option.some.injEq, forall_eq']
    cases ok with
    | true =>
      have hcompletes := hend.ok_iff.mp rfl
      constructor
      · rintro ⟨td', htd', hexact⟩
        cases htd.symm.trans htd'
        exact Or.inl ⟨hcompletes, (hend.removedExactly_iff hroot hdoc).mp hexact⟩
      · rintro (⟨-, hown⟩ | ⟨hfails, -⟩)
        · exact ⟨td, htd, (hend.removedExactly_iff hroot hdoc).mpr hown⟩
        · exact absurd hcompletes hfails
    | false =>
      have hfails : ¬ impl.Completes rt s.tree (impl.join root [servicesDirname, name]) :=
        fun hc => by cases hend.ok_iff.mpr hc
      constructor
      · exact fun hunchanged =>
          Or.inr ⟨hfails, (hend.unchanged_iff hroot hdoc).mp hunchanged⟩
      · rintro (⟨hcompletes, -⟩ | ⟨-, hnothing⟩)
        · exact absurd hcompletes hfails
        · exact (hend.unchanged_iff hroot hdoc).mpr hnothing

/-! ### A name with a slash behind it -/

namespace Sample

/-- `x/` is no name of a service, and joins to the directory of `x`. -/
theorem not_removesService {impl : Impl}
    (hok : (impl.outcome runtime supply root (.removeService "x/") registered).1 = true)
    (hgone : (impl.outcome runtime supply root (.removeService "x/") registered).2.tree.get
      (keyPath root "x") = none) : ¬ impl.RemovesService runtime supply root "x/" registered := by
  intro h
  unfold Impl.RemovesService at h
  split at h
  · next t ht =>
    rw [ht] at hgone
    obtain ⟨td, -, hexact⟩ := h
    have hown := (hexact.keys (keyPath root "x") basePoint rfl hgone).2
    exact absurd hown (by decide)
  · next t ht =>
    rw [ht] at hok
    cases hok

end Sample

theorem removes_service_iff_sample :
    Impl.go.RemovesService Sample.runtime Sample.supply Sample.root "x" Sample.registered ↔
      ∀ td, trustDomainAt Sample.root Sample.registered = some td →
        Impl.go.Removable Sample.runtime Sample.root td "x" Sample.registered :=
  removes_service_iff Sample.runtime Sample.supply Sample.root Sample.plain_root Sample.emptyDisk
    Sample.registered rfl Sample.run_registered "x" .go

/-- Removing `x/` deletes the key of `x`, which stays bound. -/
theorem remove_slash_deletes_key :
    Run Sample.runtime Sample.supply Sample.root Sample.emptyDisk Sample.registered ∧
      ¬ Impl.python.RemovesService Sample.runtime Sample.supply Sample.root "x/" Sample.registered ∧
      ¬ Impl.typescript.RemovesService Sample.runtime Sample.supply Sample.root "x/"
        Sample.registered ∧
      ¬ Impl.go.RemovesService Sample.runtime Sample.supply Sample.root "x/" Sample.registered :=
  ⟨Sample.run_registered,
    Sample.not_removesService rfl rfl,
    Sample.not_removesService rfl rfl,
    Sample.not_removesService rfl rfl⟩

end Spiffile
