import Mathlib.Data.List.Basic
import Mathlib.Logic.Function.Basic

/-!
# Runs of labelled steps, and tables of cells

A run takes one step for each label of a list. Where each label is about one
cell of a table, a cell after the run is what the labels about it make of it,
and the run can be followed with these labels alone.
-/

namespace Cells

section

variable {L S : Type}

inductive Trace (R : L → S → S → Prop) : List L → S → S → Prop where
  | nil (s : S) : Trace R [] s s
  | cons {l : L} {ls : List L} {s t u : S} (first : R l s t) (rest : Trace R ls t u) :
    Trace R (l :: ls) s u

variable {R R' : L → S → S → Prop} {ls ls' : List L} {l : L} {s t u : S}

theorem Trace.single (h : R l s t) : Trace R [l] s t := .cons h (.nil t)

theorem trace_append_iff : Trace R (ls ++ ls') s u ↔ ∃ t, Trace R ls s t ∧ Trace R ls' t u := by
  constructor
  · intro h
    induction ls generalizing s with
    | nil => exact ⟨s, .nil s, h⟩
    | cons l ls ih =>
      cases h with
      | cons first rest =>
        obtain ⟨t, ht, hu⟩ := ih rest
        exact ⟨t, .cons first ht, hu⟩
  · rintro ⟨t, ht, hu⟩
    induction ht with
    | nil s => exact hu
    | cons first _ ih => exact .cons first (ih hu)

/-- The last step apart. -/
theorem trace_concat_iff : Trace R (ls ++ [l]) s u ↔ ∃ t, Trace R ls s t ∧ R l t u := by
  rw [trace_append_iff]
  constructor
  · rintro ⟨t, ht, hlast⟩
    cases hlast with
    | cons first rest =>
      cases rest
      exact ⟨t, ht, first⟩
  · rintro ⟨t, ht, hlast⟩
    exact ⟨t, ht, .single hlast⟩

theorem Trace.mono (himp : ∀ l s t, R l s t → R' l s t) (h : Trace R ls s t) : Trace R' ls s t := by
  induction h with
  | nil s => exact .nil s
  | cons first _ ih => exact .cons (himp _ _ _ first) ih

/-- Steps that are functions make runs that are. -/
theorem Trace.unique (hfun : ∀ l s t u, R l s t → R l s u → t = u) (h : Trace R ls s t)
    (h' : Trace R ls s u) : t = u := by
  induction h with
  | nil s =>
    cases h'
    rfl
  | cons first _ ih =>
    cases h' with
    | cons first' rest' =>
      rw [hfun _ _ _ _ first' first] at rest'
      exact ih rest'

end

/-! ### Tables -/

section

variable {L ι V : Type} [DecidableEq ι] (cell : L → ι) (act : L → V → V)

/-- The table after one label, which is about its own cell. -/
def updateAt (l : L) (T : ι → V) : ι → V := Function.update T (cell l) (act l (T (cell l)))

def after (ls : List L) (T : ι → V) : ι → V := ls.foldl (fun T l => updateAt cell act l T) T

theorem updateAt_other {l : L} {i : ι} (h : cell l ≠ i) (T : ι → V) : updateAt cell act l T i = T i :=
  Function.update_of_ne (Ne.symm h) _ _

/-- A cell after a run. -/
theorem after_apply (ls : List L) (T : ι → V) (i : ι) :
    after cell act ls T i = (ls.filter fun l => cell l = i).foldl (fun v l => act l v) (T i) := by
  induction ls generalizing T with
  | nil => rfl
  | cons l ls ih =>
    have hrest := ih (updateAt cell act l T)
    rw [after] at hrest
    rw [after, List.foldl_cons, hrest]
    by_cases hi : cell l = i
    · subst hi
      simp [updateAt]
    · rw [updateAt_other cell act hi]
      simp [hi]

/-- The labels about other cells could as well be left out. -/
theorem after_filter (ls : List L) (T : ι → V) (i : ι) :
    after cell act (ls.filter fun l => cell l = i) T i = after cell act ls T i := by
  rw [after_apply, after_apply, List.filter_filter]
  simp

end

/-! ### Systems that follow a table -/

section

variable {L ι V S : Type} [DecidableEq ι] {cell : L → ι} {act : L → V → V}
  {R R' : L → S → S → Prop} {Rel Alone : (ι → V) → S → Prop} {ls : List L} {s t : S} {T : ι → V}

/-- The states of a run stand for the tables of its labels. -/
theorem Trace.follows
    (hstep : ∀ T l s t, Rel T s → R l s t → Rel (updateAt cell act l T) t)
    (h : Trace R ls s t) (hs : Rel T s) : Rel (after cell act ls T) t := by
  induction h generalizing T with
  | nil s => exact hs
  | cons first _ ih => exact ih (hstep _ _ _ _ hs first)

/-- A run, followed with the labels about one cell: each can be taken, since
that cell is in both runs the same. -/
theorem Trace.project {Admits : L → V → Prop} (i : ι)
    (hstep : ∀ T l s t, Rel T s → R l s t →
      Admits l (T (cell l)) ∧ Rel (updateAt cell act l T) t)
    (halone : ∀ T l s, cell l = i → Alone T s → Admits l (T i) →
      ∃ t, R' l s t ∧ Alone (updateAt cell act l T) t)
    (h : Trace R ls s t) (hs : Rel T s) {T' : ι → V} {s' : S} (hs' : Alone T' s') (hi : T' i = T i) :
    ∃ t', Trace R' (ls.filter fun l => cell l = i) s' t' ∧
      Alone (after cell act (ls.filter fun l => cell l = i) T') t' := by
  induction h generalizing T T' s' with
  | nil s => exact ⟨s', .nil s', hs'⟩
  | @cons l ls s t u first _ ih =>
    obtain ⟨hadmits, ht⟩ := hstep _ _ _ _ hs first
    by_cases hl : cell l = i
    · rw [hl, ← hi] at hadmits
      obtain ⟨v, hfirst, hv⟩ := halone _ _ _ hl hs' hadmits
      have hsame : updateAt cell act l T' i = updateAt cell act l T i := by
        rw [updateAt, updateAt, hl, Function.update_self, Function.update_self, hi]
      obtain ⟨t', hrest, ht'⟩ := ih ht hv hsame
      rw [List.filter_cons_of_pos (by simpa using hl)]
      exact ⟨t', .cons hfirst hrest, ht'⟩
    · rw [List.filter_cons_of_neg (by simpa using hl)]
      exact ih ht hs' (hi.trans (updateAt_other cell act hl T).symm)

end

end Cells
