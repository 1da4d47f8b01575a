import Mathlib.Data.List.Basic
import Mathlib.Tactic.SplitIfs

/-!
# Loops that try one element after the other

The body of such a loop either continues, leaving a note, or ends the loop with
a result; a loop that runs out of elements answers from its last note. The
answer is that of the first element that does not continue.
-/

namespace Scan

variable {σ α β : Type}

def scan (body : α → σ ⊕ β) (exhausted : σ → β) : σ → List α → β
  | s, [] => exhausted s
  | _, a :: as =>
    match body a with
    | .inl s' => scan body exhausted s' as
    | .inr b => b
  termination_by structural _ as => as

/-- The body continues at the element. -/
def Continues (body : α → σ ⊕ β) (a : α) : Prop := ∃ s, body a = .inl s

theorem not_continues (body : α → σ ⊕ β) (a : α) : ¬ Continues body a ↔ ∃ b, body a = .inr b := by
  unfold Continues
  cases body a with
  | inl s => simp
  | inr b => simp

theorem scan_of_continues (body : α → σ ⊕ β) (exhausted : σ → β) (s : σ) (as : List α)
    (h : ∀ x ∈ as, Continues body x) : ∃ s', scan body exhausted s as = exhausted s' := by
  induction as generalizing s with
  | nil => exact ⟨s, rfl⟩
  | cons a as ih =>
    rw [List.forall_mem_cons] at h
    obtain ⟨s', hs'⟩ := h.1
    simp only [scan, hs']
    exact ih s' h.2

theorem scan_append_cons (body : α → σ ⊕ β) (exhausted : σ → β) (s : σ) (pre post : List α) (a : α)
    (b : β) (hpre : ∀ x ∈ pre, Continues body x) (ha : body a = .inr b) :
    scan body exhausted s (pre ++ a :: post) = b := by
  induction pre generalizing s with
  | nil => simp only [List.nil_append, scan, ha]
  | cons x pre ih =>
    rw [List.forall_mem_cons] at hpre
    obtain ⟨s', hs'⟩ := hpre.1
    simp only [List.cons_append, scan, hs']
    exact ih s' hpre.2

/-- A list continues as a whole, or it is split at the first element that does
not. -/
theorem continues_or_split (body : α → σ ⊕ β) (as : List α) :
    (∀ x ∈ as, Continues body x) ∨
      ∃ pre a post b, as = pre ++ a :: post ∧ (∀ x ∈ pre, Continues body x) ∧ body a = .inr b := by
  induction as with
  | nil => exact Or.inl fun x hx => absurd hx List.not_mem_nil
  | cons a as ih =>
    cases ha : body a with
    | inl s =>
      rcases ih with hall | ⟨pre, a', post, b, rfl, hpre, hb⟩
      · exact Or.inl (List.forall_mem_cons.mpr ⟨⟨s, ha⟩, hall⟩)
      · exact Or.inr ⟨a :: pre, a', post, b, rfl, List.forall_mem_cons.mpr ⟨⟨s, ha⟩, hpre⟩, hb⟩
    | inr b => exact Or.inr ⟨[], a, as, b, rfl, fun x hx => absurd hx List.not_mem_nil, ha⟩

/-- The note a loop starts with does not change an answer it comes to. -/
theorem scan_note {body : α → σ ⊕ β} {exhausted : σ → β} {s : σ} {as : List α} {b : β}
    (h : scan body exhausted s as = b) (hb : ∀ s', exhausted s' ≠ b) (s' : σ) :
    scan body exhausted s' as = b := by
  rcases continues_or_split body as with hall | ⟨pre, a, post, b', rfl, hpre, ha⟩
  · obtain ⟨n, hn⟩ := scan_of_continues body exhausted s as hall
    exact absurd (hn.symm.trans h) (hb n)
  · rw [scan_append_cons body exhausted s pre post a b' hpre ha] at h
    rw [scan_append_cons body exhausted s' pre post a b' hpre ha, h]

/-- One more element in front, which the loop passes or answers alike. -/
theorem scan_cons_eq {body : α → σ ⊕ β} {exhausted : σ → β} {s : σ} {a : α} {as : List α} {b : β}
    (ha : Continues body a ∨ body a = .inr b) (h : scan body exhausted s as = b)
    (hb : ∀ s', exhausted s' ≠ b) : scan body exhausted s (a :: as) = b := by
  rcases ha with ⟨s', hs'⟩ | ha
  · simp only [scan, hs']
    exact scan_note h hb s'
  · simp only [scan, ha]

/-- An answer comes from the end of the list or from one of its elements. -/
theorem scan_cases (body : α → σ ⊕ β) (exhausted : σ → β) (s : σ) (as : List α) :
    (∃ s', scan body exhausted s as = exhausted s') ∨
      ∃ a ∈ as, body a = .inr (scan body exhausted s as) := by
  rcases continues_or_split body as with hall | ⟨pre, a, post, b, rfl, hpre, ha⟩
  · exact Or.inl (scan_of_continues body exhausted s as hall)
  · rw [scan_append_cons body exhausted s pre post a b hpre ha]
    exact Or.inr ⟨a, List.mem_append_right _ List.mem_cons_self, ha⟩

/-- The answer is `good` exactly when the first element that does not continue
gives a good one, for a loop that does not run out of elements with a bad one. -/
theorem scan_good_iff (body : α → σ ⊕ β) (exhausted : σ → β) (good : β → Prop) (s : σ)
    (as : List α) (hex : (∀ s', good (exhausted s')) ∨ ∃ a ∈ as, ¬ Continues body a) :
    good (scan body exhausted s as) ↔
      ∀ pre a post b, as = pre ++ a :: post → (∀ x ∈ pre, Continues body x) → body a = .inr b →
        good b := by
  constructor
  · rintro hg pre a post b rfl hpre ha
    rwa [scan_append_cons body exhausted s pre post a b hpre ha] at hg
  · intro hall
    rcases continues_or_split body as with hcont | ⟨pre, a, post, b, rfl, hpre, ha⟩
    · obtain ⟨s', hs'⟩ := scan_of_continues body exhausted s as hcont
      rw [hs']
      rcases hex with hex | ⟨a, hmem, ha⟩
      · exact hex s'
      · exact absurd (hcont a hmem) ha
    · rw [scan_append_cons body exhausted s pre post a b hpre ha]
      exact hall pre a post b rfl hpre ha

/-- An element is accepted, or it spoils the loop, or the loop passes it. -/
inductive Verdict (body : α → σ ⊕ β) (ok : β → Prop) (accepts spoils : α → Prop) (a : α) : Prop
  | accepted (b : β) : accepts a → ¬ spoils a → body a = .inr b → ok b → Verdict body ok accepts spoils a
  | spoiled (b : β) : spoils a → body a = .inr b → ¬ ok b → Verdict body ok accepts spoils a
  | passed : ¬ accepts a → ¬ spoils a → Continues body a → Verdict body ok accepts spoils a

/-- With an element to accept, the loop succeeds exactly when nothing spoils it
before the first such element. -/
theorem scan_ok_iff (body : α → σ ⊕ β) (exhausted : σ → β) {ok : β → Prop}
    {accepts spoils : α → Prop} (verdict : ∀ a, Verdict body ok accepts spoils a) (s : σ)
    (as : List α) (hacc : ∃ a ∈ as, accepts a) :
    ok (scan body exhausted s as) ↔
      ∀ pre a post, as = pre ++ a :: post → (∀ x ∈ pre, ¬ accepts x) → ¬ spoils a := by
  have hnot : ∀ a, Continues body a → ¬ accepts a := by
    rintro a ⟨s', hs'⟩
    cases verdict a with
    | accepted b _ _ hb _ =>
      rw [hb] at hs'
      cases hs'
    | spoiled b _ hb _ =>
      rw [hb] at hs'
      cases hs'
    | passed hn _ _ => exact hn
  have hstop : ∃ a ∈ as, ¬ Continues body a := by
    obtain ⟨a, hmem, ha⟩ := hacc
    exact ⟨a, hmem, fun hc => hnot a hc ha⟩
  rw [scan_good_iff body exhausted ok s as (Or.inr hstop)]
  constructor
  · intro hall pre a post has hpre hspoils
    -- the first element that does not continue stands in `pre`, or it is `a`
    rcases continues_or_split body pre with hcont | ⟨pre', x, post', b, rfl, hpre', hx⟩
    · cases verdict a with
      | accepted b _ hn _ _ => exact hn hspoils
      | spoiled b _ hb hbad => exact hbad (hall pre a post b has hcont hb)
      | passed _ hn _ => exact hn hspoils
    · have hok := hall pre' x (post' ++ a :: post) b (by simp [has]) hpre' hx
      cases verdict x with
      | accepted _ ha _ _ _ => exact hpre x (List.mem_append_right _ List.mem_cons_self) ha
      | spoiled b' _ hb hbad =>
        rw [hx] at hb
        cases hb
        exact hbad hok
      | passed _ _ hc => exact (not_continues body x).mpr ⟨b, hx⟩ hc
  · intro hclean pre a post b has hpre ha
    cases verdict a with
    | accepted b' _ _ hb hok =>
      rw [ha] at hb
      cases hb
      exact hok
    | spoiled _ hspoils _ _ =>
      exact absurd hspoils (hclean pre a post has fun x hx => hnot x (hpre x hx))
    | passed _ _ hc => exact absurd hc ((not_continues body a).mpr ⟨b, ha⟩)

/-- An element to accept comes before all those that spoil the loop. -/
def Reaches (accepts spoils : α → Prop) (as : List α) : Prop :=
  ∃ pre a post, as = pre ++ a :: post ∧ (∀ x ∈ pre, ¬ accepts x ∧ ¬ spoils x) ∧
    accepts a ∧ ¬ spoils a

/-- Nothing spoils the loop up to the first element to accept. -/
def Clean (accepts spoils : α → Prop) (as : List α) : Prop :=
  ∀ pre a post, as = pre ++ a :: post → (∀ x ∈ pre, ¬ accepts x) → ¬ spoils a

theorem exists_first (good : α → Prop) (as : List α) (h : ∃ a ∈ as, good a) :
    ∃ pre a post, as = pre ++ a :: post ∧ (∀ x ∈ pre, ¬ good x) ∧ good a := by
  classical
  induction as with
  | nil =>
    obtain ⟨a, ha, -⟩ := h
    cases ha
  | cons b as ih =>
    by_cases hb : good b
    · exact ⟨[], b, as, rfl, fun x hx => absurd hx List.not_mem_nil, hb⟩
    · obtain ⟨a, ha, hg⟩ := h
      rcases List.mem_cons.mp ha with rfl | ha
      · exact absurd hg hb
      · obtain ⟨pre, a', post, rfl, hpre, ha'⟩ := ih ⟨a, ha, hg⟩
        exact ⟨b :: pre, a', post, rfl, List.forall_mem_cons.mpr ⟨hb, hpre⟩, ha'⟩

theorem reaches_iff (accepts spoils : α → Prop) (as : List α) :
    Reaches accepts spoils as ↔ (∃ a ∈ as, accepts a) ∧ Clean accepts spoils as := by
  constructor
  · intro h
    obtain ⟨pre, a, post, rfl, hpre, hacc, hn⟩ := h
    refine ⟨⟨a, List.mem_append_right _ List.mem_cons_self, hacc⟩, ?_⟩
    intro pre' b post' has hpre'
    -- `b` stands in `pre`, or it is `a`, or `a` stands before it
    rcases List.append_eq_append_iff.mp has with ⟨l, hl, hr⟩ | ⟨l, hl, hr⟩
    · cases l with
      | nil =>
        cases hr
        exact hn
      | cons x l =>
        cases hr
        exact absurd hacc (hpre' a (hl ▸ List.mem_append_right _ List.mem_cons_self))
    · cases l with
      | nil =>
        cases hr
        exact hn
      | cons x l =>
        cases hr
        exact (hpre b (hl ▸ List.mem_append_right _ List.mem_cons_self)).2
  · intro h
    obtain ⟨pre, a, post, rfl, hpre, hacc⟩ := exists_first accepts as h.1
    refine ⟨pre, a, post, rfl, fun x hx => ⟨hpre x hx, ?_⟩, hacc, h.2 pre a post rfl hpre⟩
    obtain ⟨pre₁, pre₂, rfl⟩ := List.append_of_mem hx
    exact h.2 pre₁ x (pre₂ ++ a :: post) (by simp) fun y hy => hpre y (List.mem_append_left _ hy)

/-- Where running out of elements is no success, the loop succeeds exactly when
it reaches an element to accept. -/
theorem scan_ok_iff_reaches (body : α → σ ⊕ β) (exhausted : σ → β) {ok : β → Prop}
    {accepts spoils : α → Prop} (verdict : ∀ a, Verdict body ok accepts spoils a)
    (hex : ∀ s, ¬ ok (exhausted s)) (s : σ) (as : List α) :
    ok (scan body exhausted s as) ↔ Reaches accepts spoils as := by
  constructor
  · intro hok
    rcases continues_or_split body as with hcont | ⟨pre, a, post, b, rfl, hpre, ha⟩
    · obtain ⟨s', hs'⟩ := scan_of_continues body exhausted s as hcont
      rw [hs'] at hok
      exact absurd hok (hex s')
    · rw [scan_append_cons body exhausted s pre post a b hpre ha] at hok
      refine ⟨pre, a, post, rfl, fun x hx => ?_, ?_⟩
      · obtain ⟨s', hs'⟩ := hpre x hx
        cases verdict x with
        | accepted b' _ _ hb _ =>
          rw [hs'] at hb
          cases hb
        | spoiled b' _ hb _ =>
          rw [hs'] at hb
          cases hb
        | passed hn hs _ => exact ⟨hn, hs⟩
      · cases verdict a with
        | accepted _ hacc hn _ _ => exact ⟨hacc, hn⟩
        | spoiled b' _ hb hbad =>
          rw [ha] at hb
          cases hb
          exact absurd hok hbad
        | passed _ _ hc => exact absurd hc ((not_continues body a).mpr ⟨b, ha⟩)
  · rintro ⟨pre, a, post, rfl, hpre, hacc, hn⟩
    have hcont : ∀ x ∈ pre, Continues body x := by
      intro x hx
      cases verdict x with
      | accepted _ h _ _ _ => exact absurd h (hpre x hx).1
      | spoiled _ h _ _ => exact absurd h (hpre x hx).2
      | passed _ _ hc => exact hc
    cases verdict a with
    | accepted b _ _ hb hok =>
      rw [scan_append_cons body exhausted s pre post a b hcont hb]
      exact hok
    | spoiled _ h _ _ => exact absurd h hn
    | passed h _ _ => exact absurd hacc h

/-! ### Choosing the elements to try -/

/-- The elements with a property, or all of them where none has it. -/
def fallback (p : α → Bool) (as : List α) : List α :=
  if (as.filter p).isEmpty then as else as.filter p

/-- Nothing is chosen, or something good is. -/
def Settled (good : α → Prop) (chosen : List α) : Prop := chosen = [] ∨ ∃ a ∈ chosen, good a

theorem exists_mem_fallback_iff (p : α → Bool) (good : α → Prop) (as : List α) :
    (∃ a ∈ fallback p as, good a) ↔ (∃ a ∈ as, good a) ∧ Settled good (as.filter p) := by
  unfold fallback Settled
  cases hempty : (as.filter p).isEmpty with
  | true =>
    rw [List.isEmpty_iff] at hempty
    simp [hempty]
  | false =>
    have hne : as.filter p ≠ [] := by simpa [List.isEmpty_iff] using hempty
    simp only [Bool.false_eq_true, if_false, hne, false_or]
    constructor
    · intro h
      obtain ⟨a, ha, hg⟩ := h
      exact ⟨⟨a, (List.mem_filter.mp ha).1, hg⟩, a, ha, hg⟩
    · intro h
      exact h.2

theorem mem_of_mem_fallback {p : α → Bool} {as : List α} {a : α} (h : a ∈ fallback p as) :
    a ∈ as := by
  unfold fallback at h
  split_ifs at h
  · exact h
  · exact (List.mem_filter.mp h).1

/-- An element that is not chosen changes nothing, or is one more to fall back
on. -/
theorem fallback_cons_of_neg {p : α → Bool} {a : α} (ha : p a = false) (as : List α) :
    fallback p (a :: as) = fallback p as ∨ fallback p (a :: as) = a :: fallback p as := by
  have hfilter : (a :: as).filter p = as.filter p := List.filter_cons_of_neg (by simp [ha])
  unfold fallback
  rw [hfilter]
  split_ifs
  · exact Or.inr rfl
  · exact Or.inl rfl

theorem fallback_map {γ : Type} (f : γ → α) (p : α → Bool) (as : List γ) :
    fallback p (as.map f) = (fallback (fun a => p (f a)) as).map f := by
  have hfilter : (as.map f).filter p = (as.filter fun a => p (f a)).map f := List.filter_map
  unfold fallback
  rw [hfilter, List.isEmpty_map]
  split <;> rfl

theorem fallback_congr {p q : α → Bool} (as : List α) (h : ∀ a ∈ as, p a = q a) :
    fallback p as = fallback q as := by
  unfold fallback
  rw [List.filter_congr h]

theorem clean_map {γ : Type} (f : γ → α) (accepts spoils : α → Prop) (as : List γ) :
    Clean accepts spoils (as.map f) ↔ Clean (fun a => accepts (f a)) (fun a => spoils (f a)) as := by
  constructor
  · intro h pre a post has hpre
    refine h (pre.map f) (f a) (post.map f) (by simp [has]) ?_
    intro x hx
    obtain ⟨y, hy, rfl⟩ := List.mem_map.mp hx
    exact hpre y hy
  · intro h pre b post has hpre
    obtain ⟨pre', rest, rfl, rfl, hrest⟩ := List.map_eq_append_iff.mp has
    obtain ⟨a, post', rfl, rfl, rfl⟩ := List.map_eq_cons_iff.mp hrest
    exact h pre' a post' rfl fun y hy => hpre (f y) (List.mem_map_of_mem hy)

theorem clean_congr {accepts accepts' spoils : α → Prop} (as : List α)
    (h : ∀ a ∈ as, accepts a ↔ accepts' a) : Clean accepts spoils as ↔ Clean accepts' spoils as := by
  unfold Clean
  constructor
  · intro hc pre a post has hpre
    exact hc pre a post has fun x hx =>
      mt (h x (has ▸ List.mem_append_left _ hx)).mp (hpre x hx)
  · intro hc pre a post has hpre
    exact hc pre a post has fun x hx =>
      mt (h x (has ▸ List.mem_append_left _ hx)).mpr (hpre x hx)

end Scan
