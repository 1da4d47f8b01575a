import Mathlib.Logic.Relation

/-!
# Programs over a command interface

A program runs one command after the other, each chosen from the answers to
those before, and ends with a value or an error. A run can be watched: it visits
the state before each command, the states a command leaves when it is cut
short, and the last one. `Sat` is a Hoare triple with a condition on all the
states visited.
-/

inductive Prog (Cmd : Type) (Ans : Cmd → Type) (ε α : Type) where
  | ret (r : Except ε α)
  | call (c : Cmd) (k : Ans c → Prog Cmd Ans ε α)

/-- What the commands do. -/
structure Semantics (Cmd : Type) (Ans : Cmd → Type) (σ : Type) where
  step (c : Cmd) : σ → Ans c × σ
  /-- The states an interrupted command can leave. -/
  Torn : Cmd → σ → σ → Prop

/-- The same commands, none of which can be cut short. -/
def Semantics.atomic {Cmd σ : Type} {Ans : Cmd → Type} (S : Semantics Cmd Ans σ) :
    Semantics Cmd Ans σ where
  step := S.step
  Torn _ _ _ := False

namespace Prog

variable {Cmd σ ε α β : Type} {Ans : Cmd → Type}

def bind : Prog Cmd Ans ε α → (α → Prog Cmd Ans ε β) → Prog Cmd Ans ε β
  | ret (.ok a), f => f a
  | ret (.error e), _ => ret (.error e)
  | call c k, f => call c fun a => (k a).bind f

instance : Monad (Prog Cmd Ans ε) where
  pure a := ret (.ok a)
  bind := bind

/-- A command, and its answer. -/
def exec (c : Cmd) : Prog Cmd Ans ε (Ans c) := call c fun a => ret (.ok a)

def throw (e : ε) : Prog Cmd Ans ε α := ret (.error e)

def lift (r : Except ε α) : Prog Cmd Ans ε α := ret r

variable (S : Semantics Cmd Ans σ)

def run : Prog Cmd Ans ε α → σ → Except ε α × σ
  | ret r, s => (r, s)
  | call c k, s => (k (S.step c s).1).run (S.step c s).2

/-- The program, started in a state, visits another. -/
def Visits : Prog Cmd Ans ε α → σ → σ → Prop
  | ret _, s, t => t = s
  | call c k, s, t => t = s ∨ S.Torn c s t ∨ (k (S.step c s).1).Visits (S.step c s).2 t

/-- The program returns a value. -/
def Returns (p : Prog Cmd Ans ε α) (s : σ) (a : α) (t : σ) : Prop := p.run S s = (.ok a, t)

/-- All visited states meet `Mid`, and the outcome meets `Post`. -/
def Sat : Prog Cmd Ans ε α → σ → (σ → Prop) → (Except ε α → σ → Prop) → Prop
  | ret r, s, Mid, Post => Mid s ∧ Post r s
  | call c k, s, Mid, Post =>
    Mid s ∧ (∀ t, S.Torn c s t → Mid t) ∧ (k (S.step c s).1).Sat (S.step c s).2 Mid Post

variable {S}

theorem sat_iff (p : Prog Cmd Ans ε α) (s : σ) (Mid : σ → Prop) (Post : Except ε α → σ → Prop) :
    p.Sat S s Mid Post ↔ (∀ t, p.Visits S s t → Mid t) ∧ Post (p.run S s).1 (p.run S s).2 := by
  induction p generalizing s with
  | ret r => simp [Sat, Visits, run]
  | call c k ih =>
    simp only [Sat, Visits, run, ih]
    constructor
    · rintro ⟨hs, htorn, hvisits, hpost⟩
      refine ⟨?_, hpost⟩
      rintro t (rfl | ht | ht)
      · exact hs
      · exact htorn t ht
      · exact hvisits t ht
    · rintro ⟨hvisits, hpost⟩
      exact ⟨hvisits s (Or.inl rfl), fun t ht => hvisits t (Or.inr (Or.inl ht)),
        fun t ht => hvisits t (Or.inr (Or.inr ht)), hpost⟩

theorem visits_start (p : Prog Cmd Ans ε α) (s : σ) : p.Visits S s s := by
  cases p with
  | ret r => rfl
  | call c k => exact Or.inl rfl

theorem visits_end (p : Prog Cmd Ans ε α) (s : σ) : p.Visits S s (p.run S s).2 := by
  induction p generalizing s with
  | ret r => rfl
  | call c k ih => exact Or.inr (Or.inr (ih _ _))

theorem Returns.visits {p : Prog Cmd Ans ε α} {s t : σ} {a : α} (h : p.Returns S s a t) :
    p.Visits S s t := by
  have hend := visits_end (S := S) p s
  rw [h] at hend
  exact hend

theorem Sat.start {p : Prog Cmd Ans ε α} {s : σ} {Mid : σ → Prop} {Post : Except ε α → σ → Prop}
    (h : p.Sat S s Mid Post) : Mid s := ((sat_iff p s Mid Post).mp h).1 s (visits_start p s)

/-- The state after so many commands. -/
def cut (S : Semantics Cmd Ans σ) : Nat → Prog Cmd Ans ε α → σ → σ
  | 0, _, s => s
  | _ + 1, ret _, s => s
  | n + 1, call c k, s => cut S n (k (S.step c s).1) (S.step c s).2

theorem visits_cut (n : Nat) (p : Prog Cmd Ans ε α) (s : σ) : p.Visits S s (p.cut S n s) := by
  induction n generalizing p s with
  | zero => exact visits_start p s
  | succ n ih =>
    cases p with
    | ret r => rfl
    | call c k => exact Or.inr (Or.inr (ih _ _))

/-! ### Rules -/

theorem sat_lift (r : Except ε α) (s : σ) (Mid : σ → Prop) (Post : Except ε α → σ → Prop) :
    (lift r : Prog Cmd Ans ε α).Sat S s Mid Post ↔ Mid s ∧ Post r s := Iff.rfl

theorem sat_exec (c : Cmd) (s : σ) (Mid : σ → Prop) (Post : Except ε (Ans c) → σ → Prop) :
    (exec c : Prog Cmd Ans ε (Ans c)).Sat S s Mid Post ↔
      Mid s ∧ (∀ t, S.Torn c s t → Mid t) ∧ Mid (S.step c s).2 ∧
        Post (.ok (S.step c s).1) (S.step c s).2 := Iff.rfl

/-- The second part starts where the first one returned. -/
theorem sat_bind (p : Prog Cmd Ans ε α) (f : α → Prog Cmd Ans ε β) (s : σ) (Mid : σ → Prop)
    (Post : Except ε β → σ → Prop) :
    (p >>= f).Sat S s Mid Post ↔
      p.Sat S s Mid fun r t =>
        match r with
        | .ok a => (f a).Sat S t Mid Post
        | .error e => Post (.error e) t := by
  change (p.bind f).Sat S s Mid Post ↔ _
  induction p generalizing s with
  | ret r =>
    cases r with
    | ok a => exact ⟨fun h => ⟨h.start, h⟩, fun h => h.2⟩
    | error e => exact Iff.rfl
  | call c k ih => simp only [bind, Sat, ih]

theorem Sat.mono {p : Prog Cmd Ans ε α} {s : σ} {Mid Mid' : σ → Prop}
    {Post Post' : Except ε α → σ → Prop} (h : p.Sat S s Mid Post) (hmid : ∀ t, Mid t → Mid' t)
    (hpost : ∀ r t, Mid t → Post r t → Post' r t) : p.Sat S s Mid' Post' := by
  rw [sat_iff] at h ⊢
  exact ⟨fun t ht => hmid t (h.1 t ht), hpost _ _ (h.1 _ (visits_end p s)) h.2⟩

/-- A command whose interruption is covered by the condition in between. -/
theorem sat_exec_bind (c : Cmd) (f : Ans c → Prog Cmd Ans ε β) (s : σ) (Mid : σ → Prop)
    (Post : Except ε β → σ → Prop) :
    (exec c >>= f).Sat S s Mid Post ↔
      Mid s ∧ (∀ t, S.Torn c s t → Mid t) ∧ (f (S.step c s).1).Sat S (S.step c s).2 Mid Post := by
  rw [sat_bind, sat_exec]
  exact ⟨fun h => ⟨h.1, h.2.1, h.2.2.2⟩, fun h => ⟨h.1, h.2.1, h.2.2.start, h.2.2⟩⟩

/-! ### Runs -/

theorem run_bind (p : Prog Cmd Ans ε α) (f : α → Prog Cmd Ans ε β) (s : σ) :
    (p >>= f).run S s =
      match p.run S s with
      | (.ok a, t) => (f a).run S t
      | (.error e, t) => (.error e, t) := by
  change (p.bind f).run S s = _
  induction p generalizing s with
  | ret r => cases r <;> rfl
  | call c k ih => exact ih _ _

theorem run_exec (c : Cmd) (s : σ) :
    (exec c : Prog Cmd Ans ε (Ans c)).run S s = (.ok (S.step c s).1, (S.step c s).2) := rfl

theorem run_exec_bind (c : Cmd) (f : Ans c → Prog Cmd Ans ε β) (s : σ) :
    (exec c >>= f).run S s = (f (S.step c s).1).run S (S.step c s).2 := rfl

/-- A returning run of a sequence is a returning run of each part. -/
theorem returns_bind {p : Prog Cmd Ans ε α} {f : α → Prog Cmd Ans ε β} {s t : σ} {b : β} :
    (p >>= f).Returns S s b t ↔ ∃ a u, p.Returns S s a u ∧ (f a).Returns S u b t := by
  unfold Returns
  rw [run_bind]
  rcases p.run S s with ⟨r, u⟩
  cases r with
  | ok a =>
    constructor
    · exact fun h => ⟨a, u, rfl, h⟩
    · rintro ⟨_, _, ⟨⟩, h⟩
      exact h
  | error e => simp

theorem returns_exec {c : Cmd} {s t : σ} {a : Ans c} :
    (exec c : Prog Cmd Ans ε (Ans c)).Returns S s a t ↔ (S.step c s).1 = a ∧ (S.step c s).2 = t := by
  simp [Returns, run_exec]

theorem returns_lift {r : Except ε α} {s t : σ} {a : α} :
    (lift r : Prog Cmd Ans ε α).Returns S s a t ↔ r = .ok a ∧ s = t := by
  simp [Returns, lift, run]

theorem returns_pure {s t : σ} {a b : α} :
    (pure a : Prog Cmd Ans ε α).Returns S s b t ↔ a = b ∧ s = t := by
  change (ret (.ok a) : Prog Cmd Ans ε α).Returns S s b t ↔ _
  simp [Returns, run]

theorem not_returns_throw {e : ε} {s t : σ} {a : α} :
    ¬ (throw e : Prog Cmd Ans ε α).Returns S s a t := by
  simp [Returns, throw, run]

theorem visits_bind (p : Prog Cmd Ans ε α) (f : α → Prog Cmd Ans ε β) (s t : σ) :
    (p >>= f).Visits S s t ↔
      p.Visits S s t ∨ ∃ a u, p.run S s = (.ok a, u) ∧ (f a).Visits S u t := by
  change (p.bind f).Visits S s t ↔ _
  induction p generalizing s with
  | ret r =>
    cases r with
    | ok a =>
      simp only [bind, Visits, run, Prod.mk.injEq, Except.ok.injEq]
      constructor
      · exact fun h => Or.inr ⟨a, s, ⟨rfl, rfl⟩, h⟩
      · rintro (rfl | ⟨_, _, ⟨rfl, rfl⟩, h⟩)
        · exact visits_start _ _
        · exact h
    | error e => simp [bind, Visits, run]
  | call c k ih => simp only [bind, Visits, run, ih, or_assoc]

/-- What follows a returning part is visited. -/
theorem visits_bind_right {p : Prog Cmd Ans ε α} {f : α → Prog Cmd Ans ε β} {s t u : σ} {a : α}
    (hp : p.Returns S s a u) (hf : (f a).Visits S u t) : (p >>= f).Visits S s t :=
  (visits_bind p f s t).mpr (Or.inr ⟨a, u, hp, hf⟩)

/-- The program, started in `s`, goes on as `q`, started in `u`. -/
structure LeadsTo (S : Semantics Cmd Ans σ) (p : Prog Cmd Ans ε α) (s : σ) (q : Prog Cmd Ans ε α)
    (u : σ) : Prop where
  run : p.run S s = q.run S u
  visits : ∀ t, q.Visits S u t → p.Visits S s t

theorem LeadsTo.trans {p q r : Prog Cmd Ans ε α} {s u v : σ} (h : p.LeadsTo S s q u)
    (h' : q.LeadsTo S u r v) : p.LeadsTo S s r v :=
  ⟨h.run.trans h'.run, fun t ht => h.visits t (h'.visits t ht)⟩

theorem leadsTo_bind {p : Prog Cmd Ans ε α} {f : α → Prog Cmd Ans ε β} {s u : σ} {a : α}
    (hp : p.Returns S s a u) : (p >>= f).LeadsTo S s (f a) u := by
  refine ⟨?_, fun t ht => visits_bind_right hp ht⟩
  rw [run_bind, show p.run S s = (.ok a, u) from hp]

theorem leadsTo_exec_bind (c : Cmd) (f : Ans c → Prog Cmd Ans ε β) (s : σ) :
    (exec c >>= f).LeadsTo S s (f (S.step c s).1) (S.step c s).2 :=
  leadsTo_bind (returns_exec.mpr ⟨rfl, rfl⟩)

theorem leadsTo_lift_bind {r : Except ε α} {a : α} (f : α → Prog Cmd Ans ε β) (s : σ)
    (hr : r = .ok a) : (lift r >>= f).LeadsTo S s (f a) s :=
  leadsTo_bind (returns_lift.mpr ⟨hr, rfl⟩)

theorem LeadsTo.returns {p q : Prog Cmd Ans ε α} {s u t : σ} {a : α} (h : p.LeadsTo S s q u)
    (hq : q.Returns S u a t) : p.Returns S s a t := h.run.trans hq

theorem run_atomic (p : Prog Cmd Ans ε α) (s : σ) : p.run S.atomic s = p.run S s := by
  induction p generalizing s with
  | ret r => rfl
  | call c k ih => exact ih _ _

theorem Returns.atomic {p : Prog Cmd Ans ε α} {s t : σ} {a : α} (h : p.Returns S s a t) :
    p.Returns S.atomic s a t := (run_atomic p s).trans h

/-! ### Commands -/

/-- The program, started in a state, issues the command in another. -/
def Issues (S : Semantics Cmd Ans σ) : Prog Cmd Ans ε α → σ → Cmd → σ → Prop
  | ret _, _, _, _ => False
  | call c k, s, d, u => d = c ∧ u = s ∨ (k (S.step c s).1).Issues S (S.step c s).2 d u

/-- Every command is issued in a state it is good in, and the outcome meets
`Post`. -/
def Guarded (S : Semantics Cmd Ans σ) (Good : Cmd → σ → Prop) :
    Prog Cmd Ans ε α → σ → (Except ε α → σ → Prop) → Prop
  | ret r, s, Post => Post r s
  | call c k, s, Post => Good c s ∧ (k (S.step c s).1).Guarded S Good (S.step c s).2 Post

section

variable {Good : Cmd → σ → Prop}

theorem Guarded.good {p : Prog Cmd Ans ε α} {s u : σ} {c : Cmd} {Post : Except ε α → σ → Prop}
    (h : p.Guarded S Good s Post) (hc : p.Issues S s c u) : Good c u := by
  induction p generalizing s with
  | ret r => exact hc.elim
  | call d k ih =>
    rcases hc with ⟨rfl, rfl⟩ | hc
    · exact h.1
    · exact ih _ h.2 hc

/-- What good commands keep holds in every state that is visited. -/
theorem Guarded.visits {I : σ → Prop}
    (hstep : ∀ c u t, I u → Good c u → t = (S.step c u).2 ∨ S.Torn c u t → I t)
    {p : Prog Cmd Ans ε α} {s : σ} {Post : Except ε α → σ → Prop} (h : p.Guarded S Good s Post)
    (hs : I s) {t : σ} (ht : p.Visits S s t) : I t := by
  induction p generalizing s with
  | ret r => exact ht ▸ hs
  | call c k ih =>
    obtain ⟨hgood, hrest⟩ := h
    rcases ht with rfl | ht | ht
    · exact hs
    · exact hstep c s t hs hgood (Or.inr ht)
    · exact ih _ hrest (hstep c s _ hs hgood (Or.inl rfl)) ht

theorem Guarded.mono {p : Prog Cmd Ans ε α} {s : σ} {Post Post' : Except ε α → σ → Prop}
    (h : p.Guarded S Good s Post) (hpost : ∀ r t, Post r t → Post' r t) :
    p.Guarded S Good s Post' := by
  induction p generalizing s with
  | ret r => exact hpost r s h
  | call c k ih => exact ⟨h.1, ih _ h.2⟩

theorem guarded_bind (p : Prog Cmd Ans ε α) (f : α → Prog Cmd Ans ε β) (s : σ)
    (Post : Except ε β → σ → Prop) :
    (p >>= f).Guarded S Good s Post ↔
      p.Guarded S Good s fun r t =>
        match r with
        | .ok a => (f a).Guarded S Good t Post
        | .error e => Post (.error e) t := by
  change (p.bind f).Guarded S Good s Post ↔ _
  induction p generalizing s with
  | ret r => cases r <;> exact Iff.rfl
  | call c k ih => simp only [bind, Guarded, ih]

theorem guarded_exec_bind (c : Cmd) (f : Ans c → Prog Cmd Ans ε β) (s : σ)
    (Post : Except ε β → σ → Prop) :
    (exec c >>= f).Guarded S Good s Post ↔
      Good c s ∧ (f (S.step c s).1).Guarded S Good (S.step c s).2 Post := Iff.rfl

theorem guarded_lift_bind {r : Except ε α} {f : α → Prog Cmd Ans ε β} {s : σ}
    {Post : Except ε β → σ → Prop} (herr : ∀ e, Post (.error e) s)
    (hf : ∀ a, r = .ok a → (f a).Guarded S Good s Post) :
    (lift r >>= f).Guarded S Good s Post := by
  cases r with
  | ok a => exact hf a rfl
  | error e => exact herr e

/-- Where only the commands matter, the parts of a program are guarded one by one. -/
theorem guarded_then {p : Prog Cmd Ans ε α} {f : α → Prog Cmd Ans ε β} {s : σ}
    {Mid : Except ε α → σ → Prop} (hp : p.Guarded S Good s Mid)
    (hf : ∀ a t, Mid (.ok a) t → (f a).Guarded S Good t fun _ _ => True) :
    (p >>= f).Guarded S Good s fun _ _ => True := by
  rw [guarded_bind]
  refine hp.mono fun r t hr => ?_
  cases r with
  | error e => trivial
  | ok a => exact hf a t hr

end

/-! ### Interference -/

/-- A Hoare triple for a program among others: before each of its commands, and
before it ends, the state changes as `Env` allows. -/
def SatAmong (S : Semantics Cmd Ans σ) (Env : σ → σ → Prop) :
    Prog Cmd Ans ε α → σ → (Except ε α → σ → Prop) → Prop
  | ret r, s, Post => ∀ t, Env s t → Post r t
  | call c k, s, Post => ∀ t, Env s t → (k (S.step c t).1).SatAmong S Env (S.step c t).2 Post

/-- Among others the program may end like this. -/
def MayEnd (S : Semantics Cmd Ans σ) (Env : σ → σ → Prop) :
    Prog Cmd Ans ε α → σ → Except ε α → σ → Prop
  | ret r, s, r', t => r' = r ∧ Env s t
  | call c k, s, r', t => ∃ u, Env s u ∧ (k (S.step c u).1).MayEnd S Env (S.step c u).2 r' t

section

variable {Env : σ → σ → Prop} {Post : Except ε β → σ → Prop}

theorem satAmong_exec_bind (c : Cmd) (f : Ans c → Prog Cmd Ans ε β) (s : σ) :
    (exec c >>= f).SatAmong S Env s Post ↔
      ∀ t, Env s t → (f (S.step c t).1).SatAmong S Env (S.step c t).2 Post := Iff.rfl

theorem satAmong_lift_bind (r : Except ε α) (f : α → Prog Cmd Ans ε β) (s : σ) :
    (lift r >>= f).SatAmong S Env s Post ↔
      match r with
      | .ok a => (f a).SatAmong S Env s Post
      | .error e => ∀ t, Env s t → Post (.error e) t := by
  cases r <;> rfl

theorem mayEnd_exec_bind (c : Cmd) (f : Ans c → Prog Cmd Ans ε β) (s : σ) (r : Except ε β) (t : σ) :
    (exec c >>= f).MayEnd S Env s r t ↔
      ∃ u, Env s u ∧ (f (S.step c u).1).MayEnd S Env (S.step c u).2 r t := Iff.rfl

theorem mayEnd_throw (e : ε) (s : σ) (r : Except ε β) (t : σ) :
    (throw e : Prog Cmd Ans ε β).MayEnd S Env s r t ↔ r = .error e ∧ Env s t := Iff.rfl

theorem mayEnd_lift_bind (r' : Except ε α) (f : α → Prog Cmd Ans ε β) (s : σ) (r : Except ε β)
    (t : σ) :
    (lift r' >>= f).MayEnd S Env s r t ↔
      match r' with
      | .ok a => (f a).MayEnd S Env s r t
      | .error e => r = .error e ∧ Env s t := by
  cases r' <;> rfl

/-- A triple goes on to hold while others take steps. -/
theorem SatAmong.env (htrans : ∀ s t u, Env s t → Env t u → Env s u) {p : Prog Cmd Ans ε β}
    {s t : σ} (h : p.SatAmong S Env s Post) (ht : Env s t) : p.SatAmong S Env t Post := by
  cases p with
  | ret r => exact fun u hu => h u (htrans s t u ht hu)
  | call c k => exact fun u hu => h u (htrans s t u ht hu)

/-- Nobody may take a step at all. -/
theorem SatAmong.run (hrefl : ∀ s, Env s s) {p : Prog Cmd Ans ε β} {s : σ}
    (h : p.SatAmong S Env s Post) : Post (p.run S s).1 (p.run S s).2 := by
  induction p generalizing s with
  | ret r => exact h s (hrefl s)
  | call c k ih => exact ih _ (h s (hrefl s))

end

/-- What every program of a family keeps through all the states it visits,
every run of them keeps. -/
theorem invariant_of_calls {ι : Type} {R : ι → σ → σ → Prop} {I : σ → Prop}
    (hstep : ∀ i s t, I s → R i s t → I t) {s t : σ} (hs : I s)
    (h : Relation.ReflTransGen (fun s t => ∃ i, R i s t) s t) : I t := by
  induction h with
  | refl => exact hs
  | tail _ hlast ih =>
    obtain ⟨i, hi⟩ := hlast
    exact hstep i _ _ ih hi

end Prog
