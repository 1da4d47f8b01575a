import Spiffile.Lib.Program

/-!
# Commands that keep more state

A semantics extends another along a map of the states if it answers alike and
the map forgets what it keeps besides. A program then runs alike in both.
-/

namespace Semantics

variable {Cmd σ τ ε α : Type} {Ans : Cmd → Type}

structure Extends (T : Semantics Cmd Ans τ) (S : Semantics Cmd Ans σ) (f : τ → σ) : Prop where
  answer : ∀ c t, (T.step c t).1 = (S.step c (f t)).1
  state : ∀ c t, f (T.step c t).2 = (S.step c (f t)).2
  torn : ∀ c t u, T.Torn c t u → S.Torn c (f t) (f u)
  lift : ∀ c t s, S.Torn c (f t) s → ∃ u, f u = s ∧ T.Torn c t u

namespace Extends

variable {T : Semantics Cmd Ans τ} {S : Semantics Cmd Ans σ} {f : τ → σ} (h : T.Extends S f)

include h

theorem run (p : Prog Cmd Ans ε α) (t : τ) :
    p.run S (f t) = ((p.run T t).1, f (p.run T t).2) := by
  induction p generalizing t with
  | ret r => rfl
  | call c k ih =>
    have hstep := ih (T.step c t).1 (T.step c t).2
    rw [h.answer, h.state] at hstep
    simp only [Prog.run]
    rw [hstep, h.answer]

theorem visits {p : Prog Cmd Ans ε α} {t u : τ} (hv : p.Visits T t u) :
    p.Visits S (f t) (f u) := by
  induction p generalizing t with
  | ret r => exact congrArg f hv
  | call c k ih =>
    rcases hv with rfl | htorn | hrest
    · exact Or.inl rfl
    · exact Or.inr (Or.inl (h.torn c t u htorn))
    · have hstep := ih _ hrest
      rw [h.answer, h.state] at hstep
      exact Or.inr (Or.inr hstep)

/-- What is visited without the additional state is visited with it. -/
theorem visits_lift {p : Prog Cmd Ans ε α} {t : τ} {s : σ} (hv : p.Visits S (f t) s) :
    ∃ u, f u = s ∧ p.Visits T t u := by
  induction p generalizing t with
  | ret r => exact ⟨t, hv.symm, rfl⟩
  | call c k ih =>
    rcases hv with rfl | htorn | hrest
    · exact ⟨t, rfl, Or.inl rfl⟩
    · obtain ⟨u, hu, hut⟩ := h.lift c t s htorn
      exact ⟨u, hu, Or.inr (Or.inl hut)⟩
    · rw [← h.answer, ← h.state] at hrest
      obtain ⟨u, hu, huv⟩ := ih _ hrest
      exact ⟨u, hu, Or.inr (Or.inr huv)⟩

end Extends

end Semantics
