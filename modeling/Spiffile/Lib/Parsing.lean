import Mathlib.Data.List.Basic
import Mathlib.Data.List.Infix

/-!
# Readers of lists

A reader takes its value from the front of a list and leaves the rest. What it
reads does not depend on what follows if it is local; it may look at the end of
the list, though, to see that a number is over. A delimited reader does not even
do this: a prefix of a list on which it succeeds gives the same value.
-/

/-- Reads a value from the front of a list. -/
def Reader (τ α : Type) := List τ → Option (α × List τ)

namespace Reader

variable {τ α β : Type}

def done (a : α) : Reader τ α := fun ts => some (a, ts)

def fail : Reader τ α := fun _ => none

def next : Reader τ τ
  | [] => none
  | t :: ts => some (t, ts)

def bind (p : Reader τ α) (f : α → Reader τ β) : Reader τ β := fun ts =>
  match p ts with
  | some (a, rest) => f a rest
  | none => none

def map (f : α → β) (p : Reader τ α) : Reader τ β := p.bind fun a => done (f a)

/-- The tokens up to the first one that does not meet the condition. -/
def span (q : τ → Bool) : Reader τ (List τ) := fun ts => some (ts.takeWhile q, ts.dropWhile q)

/-- Chooses by the next token, which stays. -/
def look (q : τ → Bool) (yes no : Reader τ α) : Reader τ α := fun ts =>
  match ts with
  | [] => none
  | t :: _ => if q t then yes ts else no ts

/-- The same, where nothing need follow. -/
def optional (q : τ → Bool) (p : Reader τ α) (a : α) : Reader τ α := fun ts =>
  match ts with
  | [] => some (a, [])
  | t :: _ => if q t then p ts else some (a, ts)

def token [DecidableEq τ] (t : τ) : Reader τ Unit :=
  next.bind fun u => if u = t then done () else fail

def tokens [DecidableEq τ] : List τ → Reader τ Unit
  | [] => done ()
  | t :: ts => (token t).bind fun _ => tokens ts

theorem bind_eq_some {p : Reader τ α} {f : α → Reader τ β} {ts rest : List τ} {b : β} :
    p.bind f ts = some (b, rest) ↔ ∃ a mid, p ts = some (a, mid) ∧ f a mid = some (b, rest) := by
  unfold bind
  cases p ts with
  | none => simp
  | some r =>
    constructor
    · exact fun h => ⟨r.1, r.2, rfl, h⟩
    · rintro ⟨a, mid, ⟨⟩, h⟩
      exact h

theorem bind_of {p : Reader τ α} {f : α → Reader τ β} {ts mid : List τ} {a : α}
    (h : p ts = some (a, mid)) : p.bind f ts = f a mid := by
  simp only [bind, h]

@[simp] theorem next_cons (t : τ) (ts : List τ) : next (t :: ts) = some (t, ts) := rfl

theorem look_cons (q : τ → Bool) (yes no : Reader τ α) (t : τ) (ts : List τ) :
    look q yes no (t :: ts) = if q t then yes (t :: ts) else no (t :: ts) := rfl

theorem token_cons [DecidableEq τ] (t : τ) (ts : List τ) : token t (t :: ts) = some ((), ts) := by
  rw [token, bind_of (next_cons t ts), if_pos rfl]
  rfl

theorem tokens_append [DecidableEq τ] (word rest : List τ) :
    tokens word (word ++ rest) = some ((), rest) := by
  induction word with
  | nil => rfl
  | cons t word ih =>
    rw [List.cons_append, tokens, bind_of (token_cons t _), ih]

theorem span_append {q : τ → Bool} {word rest : List τ} (hword : ∀ t ∈ word, q t = true)
    (hrest : ∀ t ∈ rest.head?, q t = false) : span q (word ++ rest) = some (word, rest) := by
  have hstop : rest.takeWhile q = [] ∧ rest.dropWhile q = rest := by
    cases rest with
    | nil => exact ⟨rfl, rfl⟩
    | cons t rest =>
      have ht : q t = false := hrest t rfl
      exact ⟨List.takeWhile_cons_of_neg (by simp [ht]), List.dropWhile_cons_of_neg (by simp [ht])⟩
  rw [span, List.takeWhile_append_of_pos hword, List.dropWhile_append_of_pos hword, hstop.1, hstop.2,
    List.append_nil]

/-! ### More is read than before -/

/-- Where the first reader succeeds, the second one does so with the same result. -/
def Le (p p' : Reader τ α) : Prop := ∀ ts r, p ts = some r → p' ts = some r

theorem Le.refl (p : Reader τ α) : p.Le p := fun _ _ h => h

theorem fail_le (p : Reader τ α) : fail.Le p := fun _ _ h => by cases h

theorem Le.bind {p p' : Reader τ α} {f f' : α → Reader τ β} (hp : p.Le p')
    (hf : ∀ a, (f a).Le (f' a)) : (p.bind f).Le (p'.bind f') := by
  rintro ts ⟨b, rest⟩ h
  obtain ⟨a, mid, ha, hb⟩ := bind_eq_some.mp h
  exact bind_eq_some.mpr ⟨a, mid, hp _ _ ha, hf a _ _ hb⟩

theorem Le.map {p p' : Reader τ α} (hp : p.Le p') (f : α → β) : (p.map f).Le (p'.map f) :=
  hp.bind fun _ => .refl _

theorem Le.look {q : τ → Bool} {yes yes' no no' : Reader τ α} (hyes : yes.Le yes')
    (hno : no.Le no') : (look q yes no).Le (look q yes' no') := by
  intro ts r h
  cases ts with
  | nil => cases h
  | cons t ts =>
    rw [look_cons] at h ⊢
    split_ifs at h ⊢
    · exact hyes _ _ h
    · exact hno _ _ h

theorem Le.ite {c : Prop} [Decidable c] {p p' q q' : Reader τ α} (hp : p.Le p') (hq : q.Le q') :
    (if c then p else q).Le (if c then p' else q') := by
  split_ifs
  · exact hp
  · exact hq

/-! ### Independence of what follows -/

/-- Before something that it leaves, a local reader reads the same. -/
structure Local (p : Reader τ α) : Prop where
  suffix : ∀ {ts a rest}, p ts = some (a, rest) → rest <:+ ts
  append : ∀ {ts a rest}, p ts = some (a, rest) → rest ≠ [] → ∀ more,
    p (ts ++ more) = some (a, rest ++ more)

/-- Whatever follows, a delimited reader reads the same. -/
structure Delimited (p : Reader τ α) : Prop where
  suffix : ∀ {ts a rest}, p ts = some (a, rest) → rest <:+ ts
  append : ∀ {ts a rest}, p ts = some (a, rest) → ∀ more, p (ts ++ more) = some (a, rest ++ more)

theorem Delimited.local {p : Reader τ α} (h : p.Delimited) : p.Local :=
  ⟨h.suffix, fun hp _ more => h.append hp more⟩

theorem delimited_done (a : α) : (done a : Reader τ α).Delimited := by
  refine ⟨fun h => ?_, fun h more => ?_⟩
  · cases h
    exact List.suffix_refl _
  · cases h
    rfl

theorem delimited_fail : (fail : Reader τ α).Delimited := by
  constructor
  · intro ts a rest h
    cases h
  · intro ts a rest h
    cases h

theorem delimited_next : (next : Reader τ τ).Delimited := by
  constructor
  · intro ts a rest h
    cases ts with
    | nil => cases h
    | cons t ts =>
      cases h
      exact List.suffix_cons _ _
  · intro ts a rest h more
    cases ts with
    | nil => cases h
    | cons t ts =>
      cases h
      rfl

theorem Delimited.bind {p : Reader τ α} {f : α → Reader τ β} (hp : p.Delimited)
    (hf : ∀ a, (f a).Delimited) : (p.bind f).Delimited := by
  constructor
  · intro ts b rest h
    obtain ⟨a, mid, ha, hb⟩ := bind_eq_some.mp h
    exact ((hf a).suffix hb).trans (hp.suffix ha)
  · intro ts b rest h more
    obtain ⟨a, mid, ha, hb⟩ := bind_eq_some.mp h
    exact bind_eq_some.mpr ⟨a, mid ++ more, hp.append ha more, (hf a).append hb more⟩

theorem Local.bind {p : Reader τ α} {f : α → Reader τ β} (hp : p.Local) (hf : ∀ a, (f a).Local) :
    (p.bind f).Local := by
  constructor
  · intro ts b rest h
    obtain ⟨a, mid, ha, hb⟩ := bind_eq_some.mp h
    exact ((hf a).suffix hb).trans (hp.suffix ha)
  · intro ts b rest h hne more
    obtain ⟨a, mid, ha, hb⟩ := bind_eq_some.mp h
    have hmid : mid ≠ [] := by
      rintro rfl
      exact hne (List.suffix_nil.mp ((hf a).suffix hb))
    exact bind_eq_some.mpr ⟨a, mid ++ more, hp.append ha hmid more, (hf a).append hb hne more⟩

/-- What comes last and cannot be nothing shows where the whole ends. -/
theorem Local.bind_delimited {p : Reader τ α} {f : α → Reader τ β} (hp : p.Local)
    (hf : ∀ a, (f a).Delimited) (hnil : ∀ a, f a [] = none) : (p.bind f).Delimited := by
  constructor
  · intro ts b rest h
    obtain ⟨a, mid, ha, hb⟩ := bind_eq_some.mp h
    exact ((hf a).suffix hb).trans (hp.suffix ha)
  · intro ts b rest h more
    obtain ⟨a, mid, ha, hb⟩ := bind_eq_some.mp h
    have hmid : mid ≠ [] := by
      rintro rfl
      rw [hnil] at hb
      cases hb
    exact bind_eq_some.mpr ⟨a, mid ++ more, hp.append ha hmid more, (hf a).append hb more⟩

theorem Delimited.map {p : Reader τ α} (hp : p.Delimited) (f : α → β) : (p.map f).Delimited :=
  hp.bind fun _ => delimited_done _

theorem Delimited.ite {c : Prop} [Decidable c] {p q : Reader τ α} (hp : p.Delimited)
    (hq : q.Delimited) : (if c then p else q).Delimited := by
  split_ifs
  · exact hp
  · exact hq

theorem local_span (q : τ → Bool) : (span q : Reader τ (List τ)).Local := by
  constructor
  · intro ts a rest h
    cases h
    exact List.dropWhile_suffix q
  · intro ts a rest h hne more
    cases h
    have hstop := List.head_dropWhile_not q hne
    rw [← List.takeWhile_append_dropWhile (p := q) (l := ts), List.append_assoc]
    rw [span_append (List.all_eq_true.mp List.all_takeWhile) fun t ht => ?_]
    · simp [List.takeWhile_append_dropWhile]
    · rw [List.head?_append_of_ne_nil _ hne, List.head?_eq_some_head hne, Option.mem_some_iff] at ht
      rw [← ht]
      exact hstop

theorem Local.look {q : τ → Bool} {yes no : Reader τ α} (hyes : yes.Local) (hno : no.Local) :
    (look q yes no).Local := by
  constructor
  · intro ts a rest h
    cases ts with
    | nil => cases h
    | cons t ts =>
      rw [look_cons] at h
      split_ifs at h
      · exact hyes.suffix h
      · exact hno.suffix h
  · intro ts a rest h hne more
    cases ts with
    | nil => cases h
    | cons t ts =>
      rw [List.cons_append, look_cons]
      rw [look_cons] at h
      split_ifs at h ⊢
      · exact hyes.append h hne more
      · exact hno.append h hne more

theorem Delimited.look {q : τ → Bool} {yes no : Reader τ α} (hyes : yes.Delimited)
    (hno : no.Delimited) : (Reader.look q yes no).Delimited := by
  constructor
  · exact (Local.look hyes.local hno.local).suffix
  · intro ts a rest h more
    cases ts with
    | nil => cases h
    | cons t ts =>
      rw [List.cons_append, look_cons]
      rw [look_cons] at h
      split_ifs at h ⊢
      · exact hyes.append h more
      · exact hno.append h more

theorem Local.optional {q : τ → Bool} {p : Reader τ α} (hp : p.Local) (a : α) :
    (optional q p a).Local := by
  constructor
  · intro ts b rest h
    cases ts with
    | nil =>
      cases h
      exact List.suffix_refl _
    | cons t ts =>
      simp only [Reader.optional] at h
      split_ifs at h
      · exact hp.suffix h
      · cases h
        exact List.suffix_refl _
  · intro ts b rest h hne more
    cases ts with
    | nil =>
      cases h
      exact absurd rfl hne
    | cons t ts =>
      rw [List.cons_append]
      simp only [Reader.optional] at h ⊢
      split_ifs at h ⊢
      · exact hp.append h hne more
      · cases h
        rfl

theorem delimited_token [DecidableEq τ] (t : τ) : (token t).Delimited :=
  delimited_next.bind fun _ => Delimited.ite (delimited_done _) delimited_fail

theorem delimited_tokens [DecidableEq τ] (ts : List τ) : (tokens ts).Delimited := by
  induction ts with
  | nil => exact delimited_done _
  | cons t ts ih => exact (delimited_token t).bind fun _ => ih

/-- On a prefix a delimited reader finds the same, or nothing. -/
theorem Delimited.of_shorter {p : Reader τ α} (h : p.Delimited) {ts more rest rest' : List τ}
    {a a' : α} (ha : p ts = some (a, rest)) (ha' : p (ts ++ more) = some (a', rest')) :
    a = a' ∧ rest' = rest ++ more := by
  have hsame := h.append ha more
  rw [ha'] at hsame
  cases hsame
  exact ⟨rfl, rfl⟩

end Reader
