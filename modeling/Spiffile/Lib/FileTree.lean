import Mathlib.Data.List.AList
import Mathlib.Data.List.Infix

/-!
# File trees

Directories and files under absolute paths, without links. A path that a
program hands over is a list of names that may be empty, `.` or `..`; `resolve`
walks it from the root as an operating system does. Every node of a `Volume`
stands in a directory.
-/

namespace FileTree

abbrev PathName := List String

inductive Node (α : Type) where
  | dir
  | file (content : α)
  deriving DecidableEq

inductive Errno where
  | noent
  | notDir
  | isDir
  | notEmpty
  | busy
  | inval
  deriving DecidableEq

structure Volume (α : Type) where
  nodes : AList fun _ : PathName => Node α
  root_dir : nodes.lookup [] = some .dir
  closed : ∀ p name n, nodes.lookup (p ++ [name]) = some n → nodes.lookup p = some .dir

variable {α : Type}

namespace Volume

def get (t : Volume α) (p : PathName) : Option (Node α) := t.nodes.lookup p

def isDir (t : Volume α) (p : PathName) : Bool :=
  match t.get p with
  | some .dir => true
  | _ => false

@[simp] theorem get_nil (t : Volume α) : t.get [] = some .dir := t.root_dir

theorem isDir_iff (t : Volume α) (p : PathName) : t.isDir p = true ↔ t.get p = some .dir := by
  unfold isDir
  split <;> simp_all

theorem get_parent (t : Volume α) {p : PathName} {name : String} {n : Node α}
    (h : t.get (p ++ [name]) = some n) : t.get p = some .dir := t.closed p name n h

/-- Everything above a node is a directory. -/
theorem get_ancestor (t : Volume α) {p q : PathName} {n : Node α} (h : t.get (p ++ q) = some n)
    (hq : q ≠ []) : t.get p = some .dir := by
  induction q using List.reverseRecOn generalizing n with
  | nil => exact absurd rfl hq
  | append_singleton q name ih =>
    rw [← List.append_assoc] at h
    have hdir := t.get_parent h
    by_cases hq' : q = []
    · rwa [hq', List.append_nil] at hdir
    · exact ih hdir hq'

theorem get_none_below (t : Volume α) {p q : PathName} (h : t.get p = none) : t.get (p ++ q) = none := by
  by_cases hq : q = []
  · rwa [hq, List.append_nil]
  · cases hg : t.get (p ++ q) with
    | none => rfl
    | some n => exact absurd (t.get_ancestor hg hq) (by simp [h])

/-! ### Changing one node -/

/-- A node may be put at a path in a directory, unless a directory is there. -/
def Puttable (t : Volume α) (p : PathName) : Prop := p ≠ [] ∧ t.isDir p.dropLast ∧ ¬ t.isDir p

instance (t : Volume α) (p : PathName) : Decidable (t.Puttable p) :=
  inferInstanceAs (Decidable (_ ∧ _ ∧ _))

def put (t : Volume α) (p : PathName) (n : Node α) : Volume α :=
  if h : t.Puttable p then
    { nodes := t.nodes.insert p n
      root_dir := by
        rw [AList.lookup_insert_ne h.1.symm]
        exact t.root_dir
      closed := by
        intro q name m hm
        have hdir : t.get q = some .dir := by
          by_cases hqp : q ++ [name] = p
          · have hp := h.2.1
            rw [← hqp, List.dropLast_concat] at hp
            exact (t.isDir_iff q).mp hp
          · rw [AList.lookup_insert_ne hqp] at hm
            exact t.closed q name m hm
        have hne : q ≠ p := by
          rintro rfl
          exact h.2.2 ((t.isDir_iff q).mpr hdir)
        rw [AList.lookup_insert_ne hne]
        exact hdir }
  else t

theorem get_put {t : Volume α} {p : PathName} (h : t.Puttable p) (n : Node α) (q : PathName) :
    (t.put p n).get q = if q = p then some n else t.get q := by
  rw [put, dif_pos h]
  change (t.nodes.insert p n).lookup q = _
  split_ifs with hq
  · rw [hq, AList.lookup_insert]
  · exact AList.lookup_insert_ne hq

/-- Nothing stands below the path. -/
def Bare (t : Volume α) (p : PathName) : Prop := ∀ e ∈ t.nodes.entries, ¬ (p <+: e.1 ∧ p ≠ e.1)

instance (t : Volume α) (p : PathName) : Decidable (t.Bare p) :=
  inferInstanceAs (Decidable (∀ e ∈ t.nodes.entries, ¬ (p <+: e.1 ∧ p ≠ e.1)))

theorem bare_iff (t : Volume α) (p : PathName) : t.Bare p ↔ ∀ q, q ≠ [] → t.get (p ++ q) = none := by
  constructor
  · intro h q hq
    cases hg : t.get (p ++ q) with
    | none => rfl
    | some n =>
      have hmem : (⟨p ++ q, n⟩ : Sigma fun _ => Node α) ∈ t.nodes.entries :=
        AList.mem_lookup_iff.mp hg
      exact absurd ⟨List.prefix_append p q, fun he => hq (List.self_eq_append_right.mp he)⟩
        (h _ hmem)
  · rintro h ⟨r, n⟩ hmem ⟨⟨q, hq⟩, hne⟩
    have hget : t.get r = some n := AList.mem_lookup_iff.mpr hmem
    dsimp only at hq hne
    subst hq
    have hq' : q ≠ [] := by
      rintro rfl
      exact hne (List.append_nil p).symm
    rw [h q hq'] at hget
    cases hget

/-- Everything at and below a path is gone; the root stays. -/
def erase (t : Volume α) (p : PathName) : Volume α where
  nodes :=
    { entries := t.nodes.entries.filter fun e => !(p.isPrefixOf e.1) || e.1.isEmpty
      nodupKeys := t.nodes.nodupKeys.sublist List.filter_sublist }
  root_dir := by
    rw [← Option.mem_def, AList.mem_lookup_iff, List.mem_filter]
    exact ⟨AList.mem_lookup_iff.mp t.root_dir, by simp⟩
  closed := by
    intro q name m hm
    rw [← Option.mem_def, AList.mem_lookup_iff, List.mem_filter] at hm ⊢
    have hdir : t.get q = some .dir := t.closed q name m (AList.mem_lookup_iff.mpr hm.1)
    refine ⟨AList.mem_lookup_iff.mp hdir, ?_⟩
    have hkeep := hm.2
    simp only [Bool.or_eq_true, Bool.not_eq_true', List.isEmpty_iff, List.append_eq_nil_iff,
      reduceCtorEq, and_false, or_false] at hkeep
    simp only [Bool.or_eq_true, Bool.not_eq_true', List.isEmpty_iff]
    refine Or.inl ?_
    rw [Bool.eq_false_iff, ne_eq, List.isPrefixOf_iff_prefix] at hkeep ⊢
    exact fun h => hkeep (h.trans (List.prefix_append q [name]))

theorem get_erase (t : Volume α) (p q : PathName) :
    (t.erase p).get q = if p <+: q ∧ q ≠ [] then none else t.get q := by
  have hmem : ∀ n, (t.erase p).get q = some n ↔ t.get q = some n ∧ ¬ (p <+: q ∧ q ≠ []) := by
    intro n
    have h1 : (t.erase p).get q = some n ↔
        (⟨q, n⟩ : Sigma fun _ => Node α) ∈ (t.erase p).nodes.entries := AList.mem_lookup_iff
    have h2 : t.get q = some n ↔ (⟨q, n⟩ : Sigma fun _ => Node α) ∈ t.nodes.entries :=
      AList.mem_lookup_iff
    rw [h1, h2]
    change _ ∈ t.nodes.entries.filter _ ↔ _
    rw [List.mem_filter]
    simp only [Bool.or_eq_true, Bool.not_eq_true', List.isEmpty_iff, Bool.eq_false_iff, ne_eq,
      List.isPrefixOf_iff_prefix, not_and_or, not_not]
  split_ifs with h
  · cases hg : (t.erase p).get q with
    | none => rfl
    | some n => exact absurd h ((hmem n).mp hg).2
  · cases hg : t.get q with
    | some n => exact (hmem n).mpr ⟨hg, h⟩
    | none =>
      cases hg' : (t.erase p).get q with
      | none => rfl
      | some n =>
        rw [((hmem n).mp hg').1] at hg
        cases hg

theorem get_erase_file {t : Volume α} {p : PathName} {c : α} (h : t.get p = some (.file c)) (q : PathName) :
    (t.erase p).get q = if q = p then none else t.get q := by
  have hp : p ≠ [] := by
    rintro rfl
    simp at h
  rw [get_erase]
  by_cases hq : q = p
  · rw [if_pos hq, if_pos ⟨hq ▸ List.prefix_refl p, hq ▸ hp⟩]
  · rw [if_neg hq]
    split_ifs with hpre
    · obtain ⟨⟨r, rfl⟩, -⟩ := hpre
      have hr : r ≠ [] := fun he => hq (by rw [he, List.append_nil])
      cases hg : t.get (p ++ r) with
      | none => rfl
      | some n =>
        rw [t.get_ancestor hg hr] at h
        cases h
    · rfl

theorem get_erase_bare {t : Volume α} {p : PathName} (hp : p ≠ []) (h : t.Bare p) (q : PathName) :
    (t.erase p).get q = if q = p then none else t.get q := by
  rw [get_erase]
  by_cases hq : q = p
  · rw [if_pos hq, if_pos ⟨hq ▸ List.prefix_refl p, hq ▸ hp⟩]
  · rw [if_neg hq]
    split_ifs with hpre
    · obtain ⟨⟨r, rfl⟩, -⟩ := hpre
      exact ((t.bare_iff p).mp h r fun he => hq (by rw [he, List.append_nil])).symm
    · rfl

/-! ### Walking a path -/

/-- No name holds a NUL. -/
def hasNul (name : String) : Bool := name.toList.contains (Char.ofNat 0)

/-- One name further. -/
def next (cur : PathName) (name : String) : PathName :=
  if name = "" ∨ name = "." then cur else if name = ".." then cur.dropLast else cur ++ [name]

def walk (t : Volume α) : PathName → List String → Except Errno PathName
  | cur, [] => .ok cur
  | cur, name :: names =>
    match t.get cur with
    | none => .error .noent
    | some (.file _) => .error .notDir
    | some .dir => t.walk (next cur name) names

/-- The place a path leads to, which need not exist. -/
def resolve (t : Volume α) (p : PathName) : Except Errno PathName :=
  if p.any hasNul then .error .inval else t.walk [] p

def stat (t : Volume α) (p : PathName) : Except Errno (PathName × Node α) :=
  match t.resolve p with
  | .error e => .error e
  | .ok q =>
    match t.get q with
    | none => .error .noent
    | some n => .ok (q, n)

/-! ### System calls -/

def present (t : Volume α) (p : PathName) : Bool :=
  match t.stat p with
  | .ok _ => true
  | .error _ => false

def read (t : Volume α) (p : PathName) : Except Errno α :=
  match t.stat p with
  | .ok (_, .file c) => .ok c
  | .ok (_, .dir) => .error .isDir
  | .error e => .error e

/-- Creates or replaces a file. -/
def write (t : Volume α) (p : PathName) (c : α) : Except Errno Unit × Volume α :=
  match t.resolve p with
  | .error e => (.error e, t)
  | .ok q => if t.isDir q then (.error .isDir, t) else (.ok (), t.put q (.file c))

def unlink (t : Volume α) (p : PathName) : Except Errno Unit × Volume α :=
  match t.stat p with
  | .error e => (.error e, t)
  | .ok (_, .dir) => (.error .isDir, t)
  | .ok (q, .file _) => (.ok (), t.erase q)

def rmdir (t : Volume α) (p : PathName) : Except Errno Unit × Volume α :=
  match t.stat p with
  | .error e => (.error e, t)
  | .ok (_, .file _) => (.error .notDir, t)
  | .ok (q, .dir) =>
    if q = [] then (.error .busy, t)
    else if t.Bare q then (.ok (), t.erase q) else (.error .notEmpty, t)

/-- Removes whatever is there, and is content with nothing. Where a file stands
in the way, implementations differ. -/
def removeAll (t : Volume α) (p : PathName) (lenient : Bool) : Except Errno Unit × Volume α :=
  match t.stat p with
  | .error .noent => (.ok (), t)
  | .error .notDir => (if lenient then .ok () else .error .notDir, t)
  | .error e => (.error e, t)
  | .ok (q, _) => (if q = [] then .error .busy else .ok (), t.erase q)

/-- The missing directories of a path, from above. -/
def mkdirsFrom (t : Volume α) : PathName → List String → Except Errno Unit × Volume α
  | _, [] => (.ok (), t)
  | cur, name :: names =>
    match t.get (next cur name) with
    | some .dir => t.mkdirsFrom (next cur name) names
    | some (.file _) => (.error .notDir, t)
    | none => (t.put (next cur name) .dir).mkdirsFrom (next cur name) names

def mkdirs (t : Volume α) (p : PathName) : Except Errno Unit × Volume α :=
  if p.any hasNul then (.error .inval, t) else t.mkdirsFrom [] p

/-! ### Plain paths -/

/-- A name that leads one directory further. -/
structure Plain (name : String) : Prop where
  ne_empty : name ≠ ""
  ne_dot : name ≠ "."
  ne_dotDot : name ≠ ".."
  no_nul : hasNul name = false

theorem next_plain {name : String} (h : Plain name) (cur : PathName) : next cur name = cur ++ [name] := by
  rw [next, if_neg (not_or.mpr ⟨h.ne_empty, h.ne_dot⟩), if_neg h.ne_dotDot]

theorem any_hasNul_plain {p : PathName} (hp : ∀ name ∈ p, Plain name) : p.any hasNul = false := by
  rw [List.any_eq_false]
  exact fun name h => by simp [(hp name h).no_nul]

/-- Where a walk arrives, the directory above exists. -/
theorem isDir_dropLast_of_walk (t : Volume α) (names : List String) (cur q : PathName)
    (hcur : t.get cur.dropLast = some .dir) (h : t.walk cur names = .ok q) :
    t.get q.dropLast = some .dir := by
  induction names generalizing cur with
  | nil =>
    cases h
    exact hcur
  | cons name names ih =>
    simp only [walk] at h
    split at h
    · cases h
    · cases h
    · next hdir =>
      refine ih (next cur name) ?_ h
      unfold next
      split_ifs
      · exact hcur
      · by_cases hnil : cur.dropLast = []
        · rw [hnil, List.dropLast_nil]
          exact t.get_nil
        · rw [← List.dropLast_append_getLast hnil] at hcur
          exact t.get_parent hcur
      · rwa [List.dropLast_concat]

theorem puttable_of_resolve {t : Volume α} {p q : PathName} (h : t.resolve p = .ok q)
    (hdir : ¬ t.isDir q) : t.Puttable q := by
  unfold resolve at h
  split_ifs at h
  refine ⟨?_, ?_, hdir⟩
  · rintro rfl
    exact hdir ((t.isDir_iff []).mpr t.get_nil)
  · exact (t.isDir_iff _).mpr (t.isDir_dropLast_of_walk p [] q t.get_nil h)

theorem puttable_of_file {t : Volume α} {p : PathName} {c : α} (h : t.get p = some (.file c)) :
    t.Puttable p := by
  have hne : p ≠ [] := by
    rintro rfl
    simp at h
  refine ⟨hne, (t.isDir_iff _).mpr ?_, fun hdir => ?_⟩
  · rw [← List.dropLast_append_getLast hne] at h
    exact t.get_parent h
  · rw [(t.isDir_iff p).mp hdir] at h
    cases h

theorem walk_plain (t : Volume α) (names : List String) (cur : PathName)
    (hp : ∀ name ∈ names, Plain name) (hdir : t.get (cur ++ names.dropLast) = some .dir) :
    t.walk cur names = .ok (cur ++ names) := by
  induction names generalizing cur with
  | nil => rw [walk, List.append_nil]
  | cons name names ih =>
    have hcur : t.get cur = some .dir := by
      by_cases hn : (name :: names).dropLast = []
      · rwa [hn, List.append_nil] at hdir
      · exact t.get_ancestor hdir hn
    simp only [walk, hcur, next_plain (hp name List.mem_cons_self)]
    by_cases hn : names = []
    · rw [hn, walk]
    · rw [List.dropLast_cons_of_ne_nil hn] at hdir
      rw [ih _ (fun n hn => hp n (List.mem_cons_of_mem _ hn)) (by simpa using hdir),
        List.append_assoc, List.singleton_append]

theorem walk_plain_eq_ok (t : Volume α) (names : List String) (cur q : PathName)
    (hp : ∀ name ∈ names, Plain name) (h : t.walk cur names = .ok q) : q = cur ++ names := by
  induction names generalizing cur with
  | nil =>
    cases h
    rw [List.append_nil]
  | cons name names ih =>
    simp only [walk] at h
    split at h
    · cases h
    · cases h
    · rw [next_plain (hp name List.mem_cons_self)] at h
      rw [ih _ (fun n hn => hp n (List.mem_cons_of_mem _ hn)) h, List.append_assoc,
        List.singleton_append]

theorem walk_error (t : Volume α) (names : List String) (cur : PathName) (e : Errno)
    (h : t.walk cur names = .error e) : e = .noent ∨ e = .notDir := by
  induction names generalizing cur with
  | nil => cases h
  | cons name names ih =>
    simp only [walk] at h
    split at h
    · cases h
      exact Or.inl rfl
    · cases h
      exact Or.inr rfl
    · exact ih _ h

section

variable {p : PathName} (hp : ∀ name ∈ p, Plain name) (t : Volume α)

include hp

theorem resolve_plain (hdir : t.get p.dropLast = some .dir) : t.resolve p = .ok p := by
  rw [resolve, any_hasNul_plain hp, if_neg Bool.false_ne_true, walk_plain t p [] hp hdir,
    List.nil_append]

theorem resolve_plain_eq_ok {q : PathName} (h : t.resolve p = .ok q) : q = p := by
  rw [resolve, any_hasNul_plain hp, if_neg Bool.false_ne_true] at h
  exact walk_plain_eq_ok t p [] q hp h

theorem stat_plain_some {n : Node α} (h : t.get p = some n) : t.stat p = .ok (p, n) := by
  have hdir : t.get p.dropLast = some .dir := by
    by_cases hnil : p = []
    · rw [hnil]
      exact t.get_nil
    · rw [← List.dropLast_append_getLast hnil] at h
      exact t.get_parent h
  simp only [stat, resolve_plain hp t hdir, h]

theorem stat_plain_eq_ok {q : PathName} {n : Node α} (h : t.stat p = .ok (q, n)) :
    q = p ∧ t.get p = some n := by
  unfold stat at h
  split at h
  · cases h
  · next r hr =>
    split at h
    · cases h
    · next hg =>
      cases h
      have hqp := resolve_plain_eq_ok hp t hr
      exact ⟨hqp, hqp ▸ hg⟩

theorem stat_plain_none (h : t.get p = none) :
    t.stat p = .error .noent ∨ t.stat p = .error .notDir := by
  unfold stat
  split
  · next e he =>
    rw [resolve, any_hasNul_plain hp, if_neg Bool.false_ne_true] at he
    rcases walk_error t p [] e he with rfl | rfl
    · exact Or.inl rfl
    · exact Or.inr rfl
  · next q hq =>
    rw [resolve_plain_eq_ok hp t hq, h]
    exact Or.inl rfl

theorem present_plain : t.present p = (t.get p).isSome := by
  unfold present
  cases h : t.get p with
  | some n => rw [stat_plain_some hp t h]; rfl
  | none => rcases stat_plain_none hp t h with he | he <;> rw [he] <;> rfl

theorem read_plain_eq_ok (c : α) : t.read p = .ok c ↔ t.get p = some (.file c) := by
  unfold read
  cases h : t.get p with
  | none => rcases stat_plain_none hp t h with he | he <;> simp [he]
  | some n => cases n <;> simp [stat_plain_some hp t h]

/-- Writing where the directory exists and is not overwritten. -/
theorem write_plain (hne : p ≠ []) (hdir : t.get p.dropLast = some .dir)
    (hfile : t.get p ≠ some .dir) (c : α) :
    t.Puttable p ∧ t.write p c = (.ok (), t.put p (.file c)) := by
  have hnot : ¬ t.isDir p := fun h => hfile ((t.isDir_iff p).mp h)
  exact ⟨⟨hne, (t.isDir_iff _).mpr hdir, hnot⟩,
    by simp only [write, resolve_plain hp t hdir, hnot, if_false, Bool.false_eq_true]⟩

/-- What a write can do. -/
theorem write_plain_cases (c : α) :
    (∃ e, t.write p c = (.error e, t)) ∨
      t.Puttable p ∧ t.write p c = (.ok (), t.put p (.file c)) := by
  unfold write
  split
  · next e _ => exact Or.inl ⟨e, rfl⟩
  · next q hq =>
    have hqp := resolve_plain_eq_ok hp t hq
    subst hqp
    split_ifs with hdir
    · exact Or.inl ⟨_, rfl⟩
    · exact Or.inr ⟨puttable_of_resolve hq hdir, rfl⟩

end

/-! ### What the calls change -/

theorem get_of_stat {t : Volume α} {p q : PathName} {n : Node α} (h : t.stat p = .ok (q, n)) :
    t.get q = some n := by
  unfold stat at h
  split at h
  · cases h
  · split at h
    · cases h
    · next hg =>
      cases h
      exact hg

theorem resolve_of_stat {t : Volume α} {p q : PathName} {n : Node α} (h : t.stat p = .ok (q, n)) :
    t.resolve p = .ok q := by
  unfold stat at h
  split at h
  · cases h
  · next hr =>
    split at h
    · cases h
    · cases h
      exact hr

theorem walk_append (t : Volume α) (names rest : List String) (cur : PathName) :
    t.walk cur (names ++ rest) =
      match t.walk cur names with
      | .error e => .error e
      | .ok q => t.walk q rest := by
  induction names generalizing cur with
  | nil => rfl
  | cons name names ih =>
    simp only [List.cons_append, walk]
    cases t.get cur with
    | none => rfl
    | some n =>
      cases n with
      | dir => exact ih _
      | file c => rfl

/-- One plain name further. -/
theorem stat_append (t : Volume α) (p : PathName) {name : String} (hname : Plain name) :
    t.stat (p ++ [name]) =
      match t.stat p with
      | .error e => .error e
      | .ok (_, .file _) => .error .notDir
      | .ok (d, .dir) =>
        match t.get (d ++ [name]) with
        | none => .error .noent
        | some n => .ok (d ++ [name], n) := by
  have hnul : (p ++ [name]).any hasNul = p.any hasNul := by simp [hname.no_nul]
  unfold stat resolve
  rw [hnul, walk_append]
  split_ifs
  · rfl
  · cases t.walk [] p with
    | error e => rfl
    | ok d =>
      simp only [walk, next_plain hname]
      cases hd : t.get d with
      | none => rfl
      | some n =>
        cases n with
        | dir => rfl
        | file c => rfl

/-- A walk needs directories only. -/
theorem walk_mono {t u : Volume α} (h : ∀ q, t.get q = some .dir → u.get q = some .dir)
    {names : List String} {cur d : PathName} (hw : t.walk cur names = .ok d) :
    u.walk cur names = .ok d := by
  induction names generalizing cur with
  | nil => exact hw
  | cons name names ih =>
    simp only [walk] at hw ⊢
    split at hw
    · cases hw
    · cases hw
    · next hdir =>
      rw [h cur hdir]
      exact ih hw

theorem stat_mono {t u : Volume α} (h : ∀ q, t.get q = some .dir → u.get q = some .dir)
    {p d : PathName} (hs : t.stat p = .ok (d, .dir)) : u.stat p = .ok (d, .dir) := by
  have hd := h d (get_of_stat hs)
  have hr := resolve_of_stat hs
  unfold resolve at hr
  split_ifs at hr with hnul
  unfold stat resolve
  rw [if_neg hnul, walk_mono h hr]
  simp only [hd]

/-- Directories, files and gaps stand at the same places. -/
def SameShape (t u : Volume α) : Prop :=
  ∀ q, (t.get q = some .dir ↔ u.get q = some .dir) ∧ (t.get q = none ↔ u.get q = none)

theorem SameShape.symm {t u : Volume α} (h : SameShape t u) : SameShape u t :=
  fun q => ⟨(h q).1.symm, (h q).2.symm⟩

theorem SameShape.walk {t u : Volume α} (h : SameShape t u) (names : List String)
    (cur : PathName) : t.walk cur names = u.walk cur names := by
  induction names generalizing cur with
  | nil => rfl
  | cons name names ih =>
    simp only [Volume.walk]
    cases ht : t.get cur with
    | none => rw [(h cur).2.mp ht]
    | some n =>
      cases n with
      | dir =>
        rw [(h cur).1.mp ht]
        exact ih _
      | file c =>
        cases hu : u.get cur with
        | none => exact absurd ((h cur).2.mpr hu) (by simp [ht])
        | some m =>
          cases m with
          | dir => exact absurd ((h cur).1.mpr hu) (by simp [ht])
          | file c' => rfl

/-- A path leads to the same directory, or fails in the same way. -/
theorem SameShape.stat {t u : Volume α} (h : SameShape t u) (p : PathName) :
    (∀ d, t.stat p = .ok (d, .dir) → u.stat p = .ok (d, .dir)) ∧
      (∀ d c, t.stat p = .ok (d, .file c) → ∃ c', u.stat p = .ok (d, .file c')) ∧
      ∀ e, t.stat p = .error e → u.stat p = .error e := by
  have hresolve : t.resolve p = u.resolve p := by
    unfold resolve
    rw [h.walk]
  unfold Volume.stat
  rw [hresolve]
  cases u.resolve p with
  | error e => simp
  | ok q =>
    dsimp only
    cases ht : t.get q with
    | none => simp [(h q).2.mp ht]
    | some n =>
      cases n with
      | dir => simp [(h q).1.mp ht]
      | file c =>
        cases hu : u.get q with
        | none => exact absurd ((h q).2.mpr hu) (by simp [ht])
        | some m =>
          cases m with
          | dir => exact absurd ((h q).1.mpr hu) (by simp [ht])
          | file c' => simp

theorem SameShape.stat_dir_iff {t u : Volume α} (h : SameShape t u) (p d : PathName) :
    t.stat p = .ok (d, .dir) ↔ u.stat p = .ok (d, .dir) :=
  ⟨(h.stat p).1 d, (h.symm.stat p).1 d⟩

theorem SameShape.stat_error_iff {t u : Volume α} (h : SameShape t u) (p : PathName) (e : Errno) :
    t.stat p = .error e ↔ u.stat p = .error e :=
  ⟨(h.stat p).2.2 e, (h.symm.stat p).2.2 e⟩

theorem SameShape.stat_ok_iff {t u : Volume α} (h : SameShape t u) (p d : PathName) :
    (∃ n, t.stat p = .ok (d, n)) ↔ ∃ n, u.stat p = .ok (d, n) := by
  have hmp : ∀ {t u : Volume α}, SameShape t u →
      (∃ n, t.stat p = .ok (d, n)) → ∃ n, u.stat p = .ok (d, n) := by
    rintro t u h ⟨n, hn⟩
    cases n with
    | dir => exact ⟨.dir, (h.stat p).1 d hn⟩
    | file c =>
      obtain ⟨c', hc'⟩ := (h.stat p).2.1 d c hn
      exact ⟨.file c', hc'⟩
  exact ⟨hmp h, hmp h.symm⟩

/-- Writing over a file keeps the shape. -/
theorem sameShape_put {t : Volume α} {p : PathName} (hp : t.Puttable p) {c c' : α}
    (h : t.get p = some (.file c)) : SameShape t (t.put p (.file c')) := by
  intro q
  rw [get_put hp]
  by_cases hq : q = p
  · simp [hq, h]
  · simp [hq]

/-- The second tree has the nodes of the first, and perhaps directories on the
way to a path. -/
def Grown (t u : Volume α) (p : PathName) : Prop :=
  ∀ q, u.get q = t.get q ∨ t.get q = none ∧ u.get q = some .dir ∧ q <+: p

theorem Grown.of_some {t u : Volume α} {p q : PathName} {n : Node α} (h : Grown t u p)
    (hq : t.get q = some n) : u.get q = some n := by
  rcases h q with he | ⟨hn, -⟩
  · rw [he, hq]
  · rw [hn] at hq
    cases hq

/-- Only a directory is new. -/
theorem Grown.file_iff {t u : Volume α} {p : PathName} (h : Grown t u p) (q : PathName) (c : α) :
    u.get q = some (.file c) ↔ t.get q = some (.file c) := by
  rcases h q with he | ⟨hn, hd, -⟩
  · rw [he]
  · simp [hn, hd]

theorem Grown.get_off_path {t u : Volume α} {p q : PathName} (h : Grown t u p) (hq : ¬ q <+: p) :
    u.get q = t.get q := by
  rcases h q with he | ⟨-, -, hpre⟩
  · exact he
  · exact absurd hpre hq

theorem puttable_child {t : Volume α} {cur : PathName} {name : String}
    (hcur : t.get cur = some .dir) (hnone : t.get (cur ++ [name]) = none) :
    t.Puttable (cur ++ [name]) := by
  refine ⟨by simp, ?_, ?_⟩
  · rw [List.dropLast_concat]
    exact (t.isDir_iff cur).mpr hcur
  · rw [t.isDir_iff, hnone]
    simp

theorem mkdirsFrom_spec (names : List String) (t : Volume α) (cur : PathName)
    (hp : ∀ name ∈ names, Plain name) (hcur : t.get cur = some .dir) :
    Grown t (t.mkdirsFrom cur names).2 (cur ++ names) ∧
      ((t.mkdirsFrom cur names).1 = .ok () →
        (t.mkdirsFrom cur names).2.get (cur ++ names) = some .dir) := by
  induction names generalizing t cur with
  | nil => exact ⟨fun q => Or.inl rfl, fun _ => by rw [List.append_nil]; exact hcur⟩
  | cons name names ih =>
    have hrest : ∀ n ∈ names, Plain n := fun n hn => hp n (List.mem_cons_of_mem _ hn)
    have happend : cur ++ name :: names = cur ++ [name] ++ names := by simp
    rw [happend]
    simp only [mkdirsFrom, next_plain (hp name List.mem_cons_self)]
    split
    · next hdir => exact ih t (cur ++ [name]) hrest hdir
    · exact ⟨fun q => Or.inl rfl, fun h => by cases h⟩
    · next hnone =>
      have hput := puttable_child hcur hnone
      have hnew : (t.put (cur ++ [name]) .dir).get (cur ++ [name]) = some .dir := by
        rw [get_put hput, if_pos rfl]
      obtain ⟨hgrown, hok⟩ := ih (t.put (cur ++ [name]) .dir) (cur ++ [name]) hrest hnew
      refine ⟨fun q => ?_, hok⟩
      by_cases hq : q = cur ++ [name]
      · subst hq
        exact Or.inr ⟨hnone, hgrown.of_some hnew, List.prefix_append _ _⟩
      · have hsame : (t.put (cur ++ [name]) .dir).get q = t.get q := by
          rw [get_put hput, if_neg hq]
        rcases hgrown q with he | ⟨hn, hd, hpre⟩
        · exact Or.inl (he.trans hsame)
        · exact Or.inr ⟨hsame ▸ hn, hd, hpre⟩

theorem mkdirs_spec {p : PathName} (hp : ∀ name ∈ p, Plain name) (t : Volume α) :
    Grown t (t.mkdirs p).2 p ∧ ((t.mkdirs p).1 = .ok () → (t.mkdirs p).2.get p = some .dir) := by
  rw [mkdirs, any_hasNul_plain hp, if_neg Bool.false_ne_true]
  exact mkdirsFrom_spec p t [] hp t.get_nil

/-- No file stands at the path or on the way to it. -/
def Passable (t : Volume α) (p : PathName) : Prop := ∀ q c, q <+: p → t.get q ≠ some (.file c)

theorem mkdirsFrom_ok (names : List String) (t : Volume α) (cur : PathName)
    (hp : ∀ name ∈ names, Plain name) (hcur : t.get cur = some .dir)
    (hpass : ∀ q c, q <+: names → t.get (cur ++ q) ≠ some (.file c)) :
    (t.mkdirsFrom cur names).1 = .ok () := by
  induction names generalizing t cur with
  | nil => rfl
  | cons name names ih =>
    have hrest : ∀ n ∈ names, Plain n := fun n hn => hp n (List.mem_cons_of_mem _ hn)
    have hbelow : ∀ q c, q <+: names → t.get (cur ++ [name] ++ q) ≠ some (.file c) := by
      intro q c hq
      have hfile := hpass (name :: q) c (List.cons_prefix_cons.mpr ⟨rfl, hq⟩)
      rwa [List.append_assoc, List.singleton_append]
    simp only [mkdirsFrom, next_plain (hp name List.mem_cons_self)]
    split
    · next hdir => exact ih t (cur ++ [name]) hrest hdir hbelow
    · next c hfile => exact absurd hfile (hpass [name] c (List.cons_prefix_cons.mpr ⟨rfl, List.nil_prefix⟩))
    · next hnone =>
      have hput := puttable_child hcur hnone
      refine ih (t.put (cur ++ [name]) .dir) (cur ++ [name]) hrest ?_ fun q c hq => ?_
      · rw [get_put hput, if_pos rfl]
      · rw [get_put hput]
        split_ifs
        · simp
        · exact hbelow q c hq

/-- Only a file can be in the way. -/
theorem mkdirs_ok_iff {p : PathName} (hp : ∀ name ∈ p, Plain name) (t : Volume α) :
    (t.mkdirs p).1 = .ok () ↔ t.Passable p := by
  constructor
  · intro hok q c hq hfile
    obtain ⟨hgrown, hdir⟩ := mkdirs_spec hp t
    have hnew := hgrown.of_some hfile
    obtain ⟨r, rfl⟩ := hq
    by_cases hr : r = []
    · have hq := hdir hok
      rw [hr, List.append_nil] at hq hnew
      rw [hq] at hnew
      cases hnew
    · rw [Volume.get_ancestor _ (hdir hok) hr] at hnew
      cases hnew
  · intro hpass
    rw [mkdirs, any_hasNul_plain hp, if_neg Bool.false_ne_true]
    exact mkdirsFrom_ok p t [] hp t.get_nil fun q c hq => hpass q c hq

theorem walk_passable (t : Volume α) (names : List String) (cur : PathName)
    (hp : ∀ name ∈ names, Plain name)
    (hpass : ∀ q c, q <+: names → t.get (cur ++ q) ≠ some (.file c)) :
    t.walk cur names ≠ .error .notDir := by
  induction names generalizing cur with
  | nil => simp [walk]
  | cons name names ih =>
    simp only [walk]
    split
    · simp
    · next c hfile => exact absurd (by rwa [List.append_nil]) (hpass [] c List.nil_prefix)
    · rw [next_plain (hp name List.mem_cons_self)]
      refine ih _ (fun n hn => hp n (List.mem_cons_of_mem _ hn)) fun q c hq => ?_
      have hfile := hpass (name :: q) c (List.cons_prefix_cons.mpr ⟨rfl, hq⟩)
      rwa [List.append_assoc, List.singleton_append]

/-- What is missing behind directories is just missing. -/
theorem stat_passable_none {p : PathName} (hp : ∀ name ∈ p, Plain name) {t : Volume α}
    (hpass : t.Passable p) (h : t.get p = none) : t.stat p = .error .noent := by
  unfold stat
  split
  · next e he =>
    rw [resolve, any_hasNul_plain hp, if_neg Bool.false_ne_true] at he
    rcases walk_error t p [] e he with rfl | rfl
    · rfl
    · exact absurd he (walk_passable t p [] hp fun q c hq => hpass q c hq)
  · next q hq => rw [resolve_plain_eq_ok hp t hq, h]

theorem write_cases (t : Volume α) (p : PathName) (c : α) :
    (∃ e, t.write p c = (.error e, t)) ∨
      ∃ q, t.resolve p = .ok q ∧ t.Puttable q ∧ t.write p c = (.ok (), t.put q (.file c)) := by
  unfold write
  split
  · next e _ => exact Or.inl ⟨e, rfl⟩
  · next q h =>
    split_ifs with hdir
    · exact Or.inl ⟨_, rfl⟩
    · exact Or.inr ⟨q, h, puttable_of_resolve h hdir, rfl⟩

theorem unlink_cases (t : Volume α) (p : PathName) :
    (∃ e, t.unlink p = (.error e, t)) ∨
      ∃ q c, t.stat p = .ok (q, .file c) ∧ t.unlink p = (.ok (), t.erase q) := by
  unfold unlink
  split
  · next e _ => exact Or.inl ⟨e, rfl⟩
  · exact Or.inl ⟨_, rfl⟩
  · next q c h => exact Or.inr ⟨q, c, h, rfl⟩

theorem rmdir_cases (t : Volume α) (p : PathName) :
    (∃ e, t.rmdir p = (.error e, t)) ∨
      ∃ q, t.stat p = .ok (q, .dir) ∧ q ≠ [] ∧ t.Bare q ∧ t.rmdir p = (.ok (), t.erase q) := by
  unfold rmdir
  split
  · next e _ => exact Or.inl ⟨e, rfl⟩
  · exact Or.inl ⟨_, rfl⟩
  · next q h =>
    split_ifs with hnil hbare
    · exact Or.inl ⟨_, rfl⟩
    · exact Or.inr ⟨q, h, hnil, hbare, rfl⟩
    · exact Or.inl ⟨_, rfl⟩

/-- The second tree is the first without some of the nodes at and below a path. -/
def Shrunk (t u : Volume α) (p : PathName) : Prop := ∀ q, u.get q = t.get q ∨ p <+: q ∧ u.get q = none

theorem shrunk_erase (t : Volume α) (p : PathName) : Shrunk t (t.erase p) p := by
  intro q
  rw [get_erase]
  split_ifs with h
  · exact Or.inr ⟨h.1, rfl⟩
  · exact Or.inl rfl

theorem shrunk_of_eq_erase {t u : Volume α} {p : PathName} (h : u = t.erase p) : Shrunk t u p := by
  rw [h]
  exact t.shrunk_erase p

theorem Shrunk.of_some {t u : Volume α} {p q : PathName} {n : Node α} (h : Shrunk t u p)
    (hq : u.get q = some n) : t.get q = some n := by
  rcases h q with he | ⟨-, hn⟩
  · rw [← he, hq]
  · rw [hn] at hq
    cases hq

theorem Shrunk.refl (t : Volume α) (p : PathName) : Shrunk t t p := fun _ => Or.inl rfl

theorem unlink_shrunk (t : Volume α) (p : PathName) : ∃ q, Shrunk t (t.unlink p).2 q := by
  rcases t.unlink_cases p with ⟨e, h⟩ | ⟨q, c, -, h⟩
  · exact ⟨p, by rw [h]; exact Shrunk.refl t p⟩
  · exact ⟨q, by rw [h]; exact t.shrunk_erase q⟩

theorem rmdir_shrunk (t : Volume α) (p : PathName) : ∃ q, Shrunk t (t.rmdir p).2 q := by
  rcases t.rmdir_cases p with ⟨e, h⟩ | ⟨q, -, -, -, h⟩
  · exact ⟨p, by rw [h]; exact Shrunk.refl t p⟩
  · exact ⟨q, by rw [h]; exact t.shrunk_erase q⟩

theorem removeAll_cases (t : Volume α) (p : PathName) (lenient : Bool) :
    (t.removeAll p lenient).2 = t ∨
      ∃ q n, t.stat p = .ok (q, n) ∧ (t.removeAll p lenient).2 = t.erase q := by
  unfold removeAll
  split
  · exact Or.inl rfl
  · exact Or.inl rfl
  · exact Or.inl rfl
  · next q n h => exact Or.inr ⟨q, n, h, rfl⟩

theorem removeAll_shrunk (t : Volume α) (p : PathName) (lenient : Bool) :
    ∃ q, Shrunk t (t.removeAll p lenient).2 q := by
  rcases t.removeAll_cases p lenient with h | ⟨q, n, -, h⟩
  · exact ⟨p, by rw [h]; exact Shrunk.refl t p⟩
  · exact ⟨q, by rw [h]; exact t.shrunk_erase q⟩

/-! ### Where a prefix leads -/

theorem eq_foldl_of_walk (t : Volume α) (names : List String) (cur q : PathName)
    (h : t.walk cur names = .ok q) : q = names.foldl next cur := by
  induction names generalizing cur with
  | nil =>
    cases h
    rfl
  | cons name names ih =>
    simp only [walk] at h
    split at h
    · cases h
    · cases h
    · exact ih _ h

/-- A walk that ends in a directory starts in one. -/
theorem get_of_walk (t : Volume α) (names : List String) (cur d : PathName)
    (h : t.walk cur names = .ok d) (hd : t.get d = some .dir) : t.get cur = some .dir := by
  cases names with
  | nil =>
    cases h
    exact hd
  | cons name names =>
    simp only [walk] at h
    split at h
    · cases h
    · cases h
    · assumption

theorem mem_foldl_next {names : List String} {cur : PathName} {name : String}
    (h : name ∈ names.foldl next cur) :
    name ∈ cur ∨ name ∈ names ∧ name ≠ "" ∧ name ≠ "." ∧ name ≠ ".." := by
  induction names generalizing cur with
  | nil => exact Or.inl h
  | cons n names ih =>
    rcases ih h with hcur | ⟨hin, hne⟩
    · unfold next at hcur
      split_ifs at hcur with h1 h2
      · exact Or.inl hcur
      · exact Or.inl (List.dropLast_subset cur hcur)
      · rcases List.mem_append.mp hcur with hcur | hcur
        · exact Or.inl hcur
        · obtain rfl := List.mem_singleton.mp hcur
          exact Or.inr ⟨List.mem_cons_self, fun he => h1 (Or.inl he), fun he => h1 (Or.inr he), h2⟩
    · exact Or.inr ⟨List.mem_cons_of_mem n hin, hne⟩

/-- The path leads to a directory, whose own path is plain. -/
structure Leads (t : Volume α) (p d : PathName) : Prop where
  no_nul : p.any hasNul = false
  walk : t.walk [] p = .ok d
  dir : t.get d = some .dir

theorem Leads.plain {t : Volume α} {p d : PathName} (h : t.Leads p d) : ∀ name ∈ d, Plain name := by
  intro name hname
  rw [t.eq_foldl_of_walk p [] d h.walk] at hname
  rcases mem_foldl_next hname with hnil | ⟨hin, hempty, hdot, hdotDot⟩
  · cases hnil
  · refine ⟨hempty, hdot, hdotDot, ?_⟩
    rw [Bool.eq_false_iff]
    exact List.any_eq_false.mp h.no_nul name hin

theorem leads_of_stat {t : Volume α} {p q : PathName} {name : String} {n : Node α}
    (hname : Plain name) (h : t.stat (p ++ [name]) = .ok (q, n)) :
    t.Leads p (p.foldl next []) := by
  rw [t.stat_append p hname] at h
  cases hs : t.stat p with
  | error e =>
    rw [hs] at h
    cases h
  | ok x =>
    obtain ⟨d, m⟩ := x
    rw [hs] at h
    cases m with
    | file c => cases h
    | dir =>
      have hr := resolve_of_stat hs
      unfold resolve at hr
      split_ifs at hr with hnul
      have hd := t.eq_foldl_of_walk p [] d hr
      exact ⟨Bool.eq_false_iff.mpr hnul, hd ▸ hr, hd ▸ get_of_stat hs⟩

theorem Leads.mono {t u : Volume α} {p d : PathName} (h : t.Leads p d)
    (hdirs : ∀ q, t.get q = some .dir → u.get q = some .dir) : u.Leads p d :=
  ⟨h.no_nul, walk_mono hdirs h.walk, hdirs d h.dir⟩

/-- Behind the prefix a path is one behind the directory. -/
theorem Leads.resolve {t : Volume α} {p d : PathName} (h : t.Leads p d) (rest : PathName) :
    t.resolve (p ++ rest) = t.resolve (d ++ rest) := by
  have hself : t.walk [] d = .ok d := by
    rw [t.walk_plain d [] h.plain, List.nil_append]
    rw [List.nil_append]
    by_cases hd : d = []
    · rw [hd]
      exact t.get_nil
    · have hdir := h.dir
      rw [← List.dropLast_append_getLast hd] at hdir
      exact t.get_parent hdir
  have hp := h.no_nul
  have hd := any_hasNul_plain h.plain
  unfold Volume.resolve
  rw [List.any_append, List.any_append, hp, hd, walk_append, walk_append, h.walk, hself]

theorem mkdirsFrom_append {t : Volume α} (names rest : List String) (cur d : PathName)
    (h : t.walk cur names = .ok d) (hd : t.get d = some .dir) :
    t.mkdirsFrom cur (names ++ rest) = t.mkdirsFrom d rest := by
  induction names generalizing cur with
  | nil =>
    cases h
    rfl
  | cons name names ih =>
    simp only [Volume.walk] at h
    split at h
    · cases h
    · cases h
    · have hnext := t.get_of_walk names (next cur name) d h hd
      simp only [List.cons_append, mkdirsFrom, hnext]
      exact ih _ h

theorem Leads.mkdirs {t : Volume α} {p d : PathName} (h : t.Leads p d) {rest : PathName}
    (hrest : ∀ name ∈ rest, Plain name) : t.mkdirs (p ++ rest) = t.mkdirsFrom d rest := by
  have hnul : (p ++ rest).any hasNul = false := by
    rw [List.any_append, h.no_nul, any_hasNul_plain hrest, Bool.or_false]
  rw [Volume.mkdirs, hnul, if_neg Bool.false_ne_true]
  exact mkdirsFrom_append p rest [] d h.walk h.dir

theorem Leads.mkdirs_grown {t : Volume α} {p d : PathName} (h : t.Leads p d) {rest : PathName}
    (hrest : ∀ name ∈ rest, Plain name) : Grown t (t.mkdirs (p ++ rest)).2 (d ++ rest) := by
  rw [h.mkdirs hrest]
  exact (mkdirsFrom_spec rest t d hrest h.dir).1

end Volume

end FileTree
