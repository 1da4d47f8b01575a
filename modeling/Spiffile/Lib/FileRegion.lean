import Mathlib.Data.Set.Basic
import Spiffile.Lib.FileTree

/-!
# The part of a tree below a directory

What is at and below a path, with the files on the way to it, decides how the
system calls below that path come out; and these calls leave the parts apart
from it alone.
-/

namespace FileTree

namespace Volume

variable {α : Type} {t u : Volume α} {d p : PathName}

/-- The trees agree at and below a path, and on the files on the way to it. -/
structure SameRegion (d : PathName) (t u : Volume α) : Prop where
  below : ∀ q, d <+: q → t.get q = u.get q
  files : ∀ q c, q <+: d → (t.get q = some (.file c) ↔ u.get q = some (.file c))

/-- The same, as a value. -/
def region (d : PathName) (t : Volume α) : Set (PathName × Node α) × Set (PathName × α) :=
  ({x | d <+: x.1 ∧ t.get x.1 = some x.2}, {x | x.1 <+: d ∧ t.get x.1 = some (.file x.2)})

theorem region_eq_iff : region d t = region d u ↔ SameRegion d t u := by
  constructor
  · intro h
    have hbelow := fun x => Set.ext_iff.mp (Prod.ext_iff.mp h).1 x
    have hfiles := fun x => Set.ext_iff.mp (Prod.ext_iff.mp h).2 x
    refine ⟨fun q hq => Option.ext fun n => ?_, fun q c hq => ?_⟩
    · have hn := hbelow (q, n)
      simpa only [region, Set.mem_ofPred_eq, hq, true_and] using hn
    · have hc := hfiles (q, c)
      simpa only [region, Set.mem_ofPred_eq, hq, true_and] using hc
  · intro h
    refine Prod.ext (Set.ext fun x => ?_) (Set.ext fun x => ?_)
    · exact and_congr_right fun hq => by rw [h.below x.1 hq]
    · exact and_congr_right fun hq => h.files x.1 x.2 hq

theorem SameRegion.symm (h : SameRegion d t u) : SameRegion d u t :=
  ⟨fun q hq => (h.below q hq).symm, fun q c hq => (h.files q c hq).symm⟩

/-- Only at and below `d`, up to directories on the way to it. -/
def ChangedBelow (d : PathName) (t u : Volume α) : Prop :=
  ∀ q, u.get q = t.get q ∨ d <+: q ∨ t.get q = none ∧ u.get q = some .dir ∧ q <+: d

/-- Two places of which neither is on the way to the other. -/
structure Beside (d e : PathName) : Prop where
  left : ¬ d <+: e
  right : ¬ e <+: d

theorem Beside.symm {d e : PathName} (h : Beside d e) : Beside e d := ⟨h.right, h.left⟩

theorem ChangedBelow.refl (d : PathName) (t : Volume α) : ChangedBelow d t t := fun _ => Or.inl rfl

theorem ChangedBelow.sameRegion {e : PathName} (h : ChangedBelow d t u) (hbeside : Beside d e) :
    SameRegion e u t := by
  constructor
  · intro q hq
    rcases h q with hsame | hbelow | ⟨-, -, hway⟩
    · exact hsame
    · rcases List.prefix_or_prefix_of_prefix hq hbelow with hed | hde
      · exact absurd hed hbeside.right
      · exact absurd hde hbeside.left
    · exact absurd (hq.trans hway) hbeside.right
  · intro q c hq
    rcases h q with hsame | hbelow | ⟨hnone, hdir, -⟩
    · rw [hsame]
    · exact absurd (hbelow.trans hq) hbeside.left
    · simp [hnone, hdir]

/-! ### What the calls answer -/

theorem walk_file (t : Volume α) (names : List String) (cur : PathName)
    (hp : ∀ name ∈ names, Plain name) {q : List String} {c : α} (hq : q <+: names) (hne : q ≠ names)
    (hfile : t.get (cur ++ q) = some (.file c)) : t.walk cur names = .error .notDir := by
  induction names generalizing cur q with
  | nil => exact absurd (List.prefix_nil.mp hq) hne
  | cons name names ih =>
    cases q with
    | nil =>
      rw [List.append_nil] at hfile
      simp only [walk, hfile]
    | cons name' q =>
      obtain ⟨rfl, hrest⟩ := List.cons_prefix_cons.mp hq
      have hcur : t.get cur = some .dir := t.get_ancestor hfile (by simp)
      simp only [walk, hcur, next_plain (hp _ List.mem_cons_self)]
      refine ih _ (fun n hn => hp n (List.mem_cons_of_mem _ hn)) hrest (fun h => hne (by rw [h])) ?_
      rwa [List.append_assoc, List.singleton_append]

/-- Behind a file nothing can be reached. -/
theorem stat_behind_file (hp : ∀ name ∈ p, Plain name) {q : PathName} {c : α} (hq : q <+: p)
    (hne : q ≠ p) (hfile : t.get q = some (.file c)) : t.stat p = .error .notDir := by
  have hresolve : t.resolve p = .error .notDir := by
    rw [resolve, any_hasNul_plain hp, if_neg Bool.false_ne_true]
    exact walk_file t p [] hp hq hne hfile
  simp only [stat, hresolve]

theorem SameRegion.passable (h : SameRegion d t u) (hdp : d <+: p) (hpass : t.Passable p) :
    u.Passable p := by
  intro q c hq hfile
  rcases List.prefix_or_prefix_of_prefix hq hdp with hqd | hdq
  · exact hpass q c hq ((h.files q c hqd).mpr hfile)
  · exact hpass q c hq ((h.below q hdq).trans hfile)

theorem SameRegion.stat (h : SameRegion d t u) (hp : ∀ name ∈ p, Plain name) (hdp : d <+: p) :
    t.stat p = u.stat p := by
  have hget := h.below p hdp
  cases hn : t.get p with
  | some n => rw [stat_plain_some hp t hn, stat_plain_some hp u (hget ▸ hn)]
  | none =>
    have hn' : u.get p = none := hget ▸ hn
    by_cases hpass : t.Passable p
    · rw [stat_passable_none hp hpass hn, stat_passable_none hp (h.passable hdp hpass) hn']
    · -- a file stands in the way of both
      unfold Passable at hpass
      push Not at hpass
      obtain ⟨q, c, hq, hfile⟩ := hpass
      have hne : q ≠ p := by
        rintro rfl
        rw [hn] at hfile
        cases hfile
      have hfile' : u.get q = some (.file c) := by
        rcases List.prefix_or_prefix_of_prefix hq hdp with hqd | hdq
        · exact (h.files q c hqd).mp hfile
        · exact (h.below q hdq).symm.trans hfile
      rw [stat_behind_file hp hq hne hfile, stat_behind_file hp hq hne hfile']

theorem SameRegion.read (h : SameRegion d t u) (hp : ∀ name ∈ p, Plain name) (hdp : d <+: p) :
    t.read p = u.read p := by
  unfold Volume.read
  rw [h.stat hp hdp]

theorem SameRegion.present (h : SameRegion d t u) (hp : ∀ name ∈ p, Plain name) (hdp : d <+: p) :
    t.present p = u.present p := by
  unfold Volume.present
  rw [h.stat hp hdp]

/-! ### What they change -/

theorem SameRegion.erase (h : SameRegion d t u) (p : PathName) :
    SameRegion d (t.erase p) (u.erase p) := by
  constructor
  · intro q hq
    rw [get_erase, get_erase, h.below q hq]
  · intro q c hq
    rw [get_erase, get_erase]
    split_ifs
    · rfl
    · exact h.files q c hq

theorem SameRegion.put (h : SameRegion d t u) (ht : t.Puttable p) (hu : u.Puttable p) (n : Node α) :
    SameRegion d (t.put p n) (u.put p n) := by
  constructor
  · intro q hq
    rw [get_put ht, get_put hu, h.below q hq]
  · intro q c hq
    rw [get_put ht, get_put hu]
    split_ifs
    · rfl
    · exact h.files q c hq

theorem changedBelow_erase (hdp : d <+: p) (t : Volume α) : ChangedBelow d t (t.erase p) := by
  intro q
  rcases shrunk_erase t p q with hsame | ⟨hpre, -⟩
  · exact Or.inl hsame
  · exact Or.inr (Or.inl (hdp.trans hpre))

theorem changedBelow_put (hdp : d <+: p) (ht : t.Puttable p) (n : Node α) :
    ChangedBelow d t (t.put p n) := by
  intro q
  rw [get_put ht]
  split_ifs with hq
  · exact Or.inr (Or.inl (hq ▸ hdp))
  · exact Or.inl rfl

theorem get_dropLast_of_resolve {q : PathName} (h : t.resolve p = .ok q) :
    t.get q.dropLast = some .dir := by
  unfold resolve at h
  split_ifs at h
  exact t.isDir_dropLast_of_walk p [] q t.get_nil h

section

variable (hp : ∀ name ∈ p, Plain name) (hdp : d <+: p)

include hp hdp

theorem SameRegion.unlink (h : SameRegion d t u) :
    (t.unlink p).1 = (u.unlink p).1 ∧ SameRegion d (t.unlink p).2 (u.unlink p).2 := by
  unfold Volume.unlink
  rw [← h.stat hp hdp]
  rcases t.stat p with e | ⟨q, n⟩
  · exact ⟨rfl, h⟩
  · cases n with
    | dir => exact ⟨rfl, h⟩
    | file c => exact ⟨rfl, h.erase q⟩

theorem SameRegion.removeAll (h : SameRegion d t u) (lenient : Bool) :
    (t.removeAll p lenient).1 = (u.removeAll p lenient).1 ∧
      SameRegion d (t.removeAll p lenient).2 (u.removeAll p lenient).2 := by
  unfold Volume.removeAll
  rw [← h.stat hp hdp]
  rcases t.stat p with e | ⟨q, n⟩
  · cases e <;> exact ⟨rfl, h⟩
  · exact ⟨rfl, h.erase q⟩

theorem SameRegion.rmdir (h : SameRegion d t u) :
    (t.rmdir p).1 = (u.rmdir p).1 ∧ SameRegion d (t.rmdir p).2 (u.rmdir p).2 := by
  unfold Volume.rmdir
  rw [← h.stat hp hdp]
  rcases hstat : t.stat p with e | ⟨q, n⟩
  · exact ⟨rfl, h⟩
  · obtain ⟨rfl, -⟩ := stat_plain_eq_ok hp t hstat
    cases n with
    | file c => exact ⟨rfl, h⟩
    | dir =>
      have hbare : t.Bare q ↔ u.Bare q := by
        rw [bare_iff, bare_iff]
        exact forall_congr' fun r => by rw [h.below _ (hdp.trans (List.prefix_append q r))]
      simp only [hbare]
      split_ifs
      · exact ⟨rfl, h⟩
      · exact ⟨rfl, h.erase q⟩
      · exact ⟨rfl, h⟩

theorem changedBelow_unlink (t : Volume α) : ChangedBelow d t (t.unlink p).2 := by
  rcases t.unlink_cases p with ⟨e, he⟩ | ⟨q, c, hstat, he⟩
  · rw [he]
    exact .refl d t
  · obtain ⟨rfl, -⟩ := stat_plain_eq_ok hp t hstat
    rw [he]
    exact changedBelow_erase hdp t

theorem changedBelow_rmdir (t : Volume α) : ChangedBelow d t (t.rmdir p).2 := by
  rcases t.rmdir_cases p with ⟨e, he⟩ | ⟨q, hstat, -, -, he⟩
  · rw [he]
    exact .refl d t
  · obtain ⟨rfl, -⟩ := stat_plain_eq_ok hp t hstat
    rw [he]
    exact changedBelow_erase hdp t

theorem changedBelow_removeAll (t : Volume α) (lenient : Bool) :
    ChangedBelow d t (t.removeAll p lenient).2 := by
  rcases t.removeAll_cases p lenient with he | ⟨q, n, hstat, he⟩
  · rw [he]
    exact .refl d t
  · obtain ⟨rfl, -⟩ := stat_plain_eq_ok hp t hstat
    rw [he]
    exact changedBelow_erase hdp t

theorem changedBelow_write (t : Volume α) (c : α) : ChangedBelow d t (t.write p c).2 := by
  rcases t.write_plain_cases hp c with ⟨e, he⟩ | ⟨hput, he⟩
  · rw [he]
    exact .refl d t
  · rw [he]
    exact changedBelow_put hdp hput _

/-- A file strictly below the directory. -/
theorem SameRegion.write (h : SameRegion d t u) (hne : p ≠ d) (c : α) :
    (t.write p c).1 = (u.write p c).1 ∧ SameRegion d (t.write p c).2 (u.write p c).2 := by
  have hnil : p ≠ [] := by
    rintro rfl
    exact hne (List.prefix_nil.mp hdp).symm
  have hparent : d <+: p.dropLast := by
    obtain ⟨rest, rfl⟩ := hdp
    rw [List.dropLast_append_of_ne_nil (fun hrest => hne (by rw [hrest, List.append_nil]))]
    exact List.prefix_append _ _
  have hdir := h.below _ hparent
  by_cases hd : t.get p.dropLast = some .dir
  · have hd' : u.get p.dropLast = some .dir := hdir ▸ hd
    have hget := h.below p hdp
    unfold Volume.write
    rw [resolve_plain hp t hd, resolve_plain hp u hd']
    have hisDir : t.isDir p = u.isDir p := by
      rw [Bool.eq_iff_iff, isDir_iff, isDir_iff, hget]
    simp only [hisDir]
    split_ifs with hpdir
    · exact ⟨rfl, h⟩
    · refine ⟨rfl, h.put ⟨hnil, (t.isDir_iff _).mpr hd, ?_⟩ ⟨hnil, (u.isDir_iff _).mpr hd', hpdir⟩ _⟩
      rwa [hisDir]
  · have hfail : ∀ v : Volume α, v.get p.dropLast ≠ some .dir →
        ∃ e, v.stat p = .error e ∧ v.write p c = (.error e, v) := by
      intro v hv
      cases hr : v.resolve p with
      | ok q =>
        obtain rfl := resolve_plain_eq_ok hp v hr
        exact absurd (get_dropLast_of_resolve hr) hv
      | error e => exact ⟨e, by simp only [Volume.stat, hr], by simp only [Volume.write, hr]⟩
    obtain ⟨e, hstat, hwrite⟩ := hfail t hd
    obtain ⟨e', hstat', hwrite'⟩ := hfail u (hdir ▸ hd)
    rw [← h.stat hp hdp, hstat] at hstat'
    cases hstat'
    rw [hwrite, hwrite']
    exact ⟨rfl, h⟩

end

/-! ### Making the directory itself -/

theorem mkdirsFrom_error (names : List String) (t : Volume α) (cur : PathName) {e : Errno}
    (h : (t.mkdirsFrom cur names).1 = .error e) : e = .notDir := by
  induction names generalizing t cur with
  | nil => cases h
  | cons name names ih =>
    simp only [mkdirsFrom] at h
    split at h
    · exact ih _ _ h
    · cases h
      rfl
    · exact ih _ _ h

theorem Grown.changedBelow (h : Grown t u d) : ChangedBelow d t u := by
  intro q
  rcases h q with hsame | ⟨hnone, hdir, hway⟩
  · exact Or.inl hsame
  · exact Or.inr (Or.inr ⟨hnone, hdir, hway⟩)

/-- Where a file stands in the way, the directory is not made. -/
theorem Grown.get_of_not_passable (h : Grown t u d) (hpass : ¬ t.Passable d) : u.get d = t.get d := by
  unfold Passable at hpass
  push Not at hpass
  obtain ⟨q, c, hq, hfile⟩ := hpass
  have hfile' := h.of_some hfile
  rcases h d with hsame | ⟨hnone, hdir, -⟩
  · exact hsame
  · obtain ⟨rest, rfl⟩ := hq
    by_cases hrest : rest = []
    · subst hrest
      rw [List.append_nil] at hnone
      rw [hnone] at hfile
      cases hfile
    · rw [u.get_ancestor hdir hrest] at hfile'
      cases hfile'

theorem SameRegion.mkdirs (hd : ∀ name ∈ d, Plain name) (h : SameRegion d t u) :
    (t.mkdirs d).1 = (u.mkdirs d).1 ∧ SameRegion d (t.mkdirs d).2 (u.mkdirs d).2 := by
  have hpass : t.Passable d ↔ u.Passable d :=
    ⟨h.passable (List.prefix_refl d), h.symm.passable (List.prefix_refl d)⟩
  obtain ⟨ht, htdir⟩ := mkdirs_spec hd t
  obtain ⟨hu, hudir⟩ := mkdirs_spec hd u
  have hok := mkdirs_ok_iff hd t
  have hok' := mkdirs_ok_iff hd u
  constructor
  · have hfail : ∀ v : Volume α, ¬ v.Passable d → (v.mkdirs d).1 = .error .notDir := by
      intro v hv
      cases hr : (v.mkdirs d).1 with
      | ok _ => exact absurd ((mkdirs_ok_iff hd v).mp hr) hv
      | error e =>
        rw [Volume.mkdirs, any_hasNul_plain hd, if_neg Bool.false_ne_true] at hr
        rw [mkdirsFrom_error d v [] hr]
    by_cases hp : t.Passable d
    · rw [hok.mpr hp, hok'.mpr (hpass.mp hp)]
    · rw [hfail t hp, hfail u fun hu => hp (hpass.mpr hu)]
  · constructor
    · intro q hq
      by_cases hqd : q = d
      · subst hqd
        by_cases hp : t.Passable q
        · rw [htdir (hok.mpr hp), hudir (hok'.mpr (hpass.mp hp))]
        · rw [ht.get_of_not_passable hp, hu.get_of_not_passable fun hu => hp (hpass.mpr hu),
            h.below q hq]
      · have hoff : ¬ q <+: d := fun hway => hqd (hway.eq_of_length_le hq.length_le)
        rw [ht.get_off_path hoff, hu.get_off_path hoff, h.below q hq]
    · intro q c hq
      rw [ht.file_iff, hu.file_iff]
      exact h.files q c hq

end Volume

end FileTree
