import Spiffile.Lib.Program

/-!
# Two programs and a register

Two programs take turns on one state. Each first reads a register, works on a
part of the state that is its own, and writes the register at most once. If a
program that writes finds there what it has read, the register ends as if one
program had run after the other.
-/

/-- A register in the state, and the commands that read and write it. -/
structure Register (Cmd σ D : Type) where
  value : σ → D
  reads : Cmd → Bool
  target : Cmd → Option D
  /-- The values from which a program goes on. -/
  Good : D → Prop

/-- One of two parties: what its commands do, its own part of the state, and
the part of the other. -/
structure Party (Cmd : Type) (Ans : Cmd → Type) (σ V W : Type) where
  sem : Semantics Cmd Ans σ
  mine : σ → V
  theirs : σ → W

namespace Party

variable {Cmd σ D V W ε α β : Type} {Ans : Cmd → Type} (reg : Register Cmd σ D)
  (P : Party Cmd Ans σ V W)

/-! ### What a program does to the register -/

/-- A command that works on the party's own part. -/
structure Own (c : Cmd) : Prop where
  not_read : reg.reads c = false
  not_written : reg.target c = none
  answer : ∀ s u, P.mine s = P.mine u → (P.sem.step c s).1 = (P.sem.step c u).1
  mine_congr : ∀ s u, P.mine s = P.mine u → P.mine (P.sem.step c s).2 = P.mine (P.sem.step c u).2
  theirs_same : ∀ s, P.theirs (P.sem.step c s).2 = P.theirs s
  value_same : ∀ s, reg.value (P.sem.step c s).2 = reg.value s

/-- A command that writes the register. -/
structure Sets (c : Cmd) (v : D) : Prop where
  not_read : reg.reads c = false
  written : reg.target c = some v
  good : reg.Good v
  value : ∀ s, reg.Good (reg.value s) → reg.value (P.sem.step c s).2 = v
  theirs_same : ∀ s, P.theirs (P.sem.step c s).2 = P.theirs s

/-- Whatever the answers, the program leaves the register alone. -/
def Quiet : Prog Cmd Ans ε α → Prop
  | .ret _ => True
  | .call c k => P.Own reg c ∧ ∀ a, Quiet (k a)

/-- Whatever the answers, the program writes the register once at most. -/
def Once : Prog Cmd Ans ε α → Prop
  | .ret _ => True
  | .call c k => P.Own reg c ∧ (∀ a, Once (k a)) ∨ (∃ v, P.Sets reg c v) ∧ ∀ a, P.Quiet reg (k a)

/-- What the program is going to write. -/
def pending : Prog Cmd Ans ε α → σ → Option D
  | .ret _, _ => none
  | .call c k, s =>
    match reg.target c with
    | some v => some v
    | none => pending (k (P.sem.step c s).1) (P.sem.step c s).2

/-- A program that reads the register, and stops unless it finds a good value. -/
structure Transaction (c : Cmd) (k : Ans c → Prog Cmd Ans ε α) (answer : D → Ans c) : Prop where
  reads : reg.reads c = true
  not_written : reg.target c = none
  step : ∀ s, P.sem.step c s = (answer (reg.value s), s)
  goes_on : ∀ d, (∃ r, k (answer d) = .ret r) ∨ reg.Good d ∧ P.Once reg (k (answer d))

variable {reg P}

theorem Quiet.once {p : Prog Cmd Ans ε α} (h : P.Quiet reg p) : P.Once reg p := by
  induction p with
  | ret r => trivial
  | call c k ih => exact Or.inl ⟨h.1, fun a => ih a (h.2 a)⟩

theorem quiet_bind {p : Prog Cmd Ans ε α} {f : α → Prog Cmd Ans ε β} (hp : P.Quiet reg p)
    (hf : ∀ a, P.Quiet reg (f a)) : P.Quiet reg (p >>= f) := by
  induction p with
  | ret r =>
    cases r with
    | ok a => exact hf a
    | error e => trivial
  | call c k ih => exact ⟨hp.1, fun a => ih a (hp.2 a)⟩

/-- Before the write. -/
theorem once_bind {p : Prog Cmd Ans ε α} {f : α → Prog Cmd Ans ε β} (hp : P.Quiet reg p)
    (hf : ∀ a, P.Once reg (f a)) : P.Once reg (p >>= f) := by
  induction p with
  | ret r =>
    cases r with
    | ok a => exact hf a
    | error e => trivial
  | call c k ih => exact Or.inl ⟨hp.1, fun a => ih a (hp.2 a)⟩

/-- Behind the write. -/
theorem once_bind_quiet {p : Prog Cmd Ans ε α} {f : α → Prog Cmd Ans ε β} (hp : P.Once reg p)
    (hf : ∀ a, P.Quiet reg (f a)) : P.Once reg (p >>= f) := by
  induction p with
  | ret r =>
    cases r with
    | ok a => exact (hf a).once
    | error e => trivial
  | call c k ih =>
    rcases hp with ⟨hc, hk⟩ | ⟨hc, hk⟩
    · exact Or.inl ⟨hc, fun a => ih a (hk a)⟩
    · exact Or.inr ⟨hc, fun a => quiet_bind (hk a) hf⟩

theorem quiet_exec {c : Cmd} (h : P.Own reg c) : P.Quiet reg (Prog.exec c : Prog Cmd Ans ε (Ans c)) :=
  ⟨h, fun _ => trivial⟩

theorem once_exec {c : Cmd} {v : D} (h : P.Sets reg c v) :
    P.Once reg (Prog.exec c : Prog Cmd Ans ε (Ans c)) :=
  Or.inr ⟨⟨v, h⟩, fun _ => trivial⟩

/-- What is going to be written depends on the party's own part only. -/
theorem pending_congr {p : Prog Cmd Ans ε α} (h : P.Once reg p) {s u : σ} (hs : P.mine s = P.mine u) :
    P.pending reg p s = P.pending reg p u := by
  induction p generalizing s u with
  | ret r => rfl
  | call c k ih =>
    rcases h with ⟨hc, hk⟩ | ⟨⟨v, hc⟩, -⟩
    · simp only [pending, hc.not_written]
      rw [hc.answer s u hs]
      exact ih _ (hk _) (hc.mine_congr s u hs)
    · simp only [pending, hc.written]

theorem Quiet.run {p : Prog Cmd Ans ε α} (h : P.Quiet reg p) (s : σ) :
    reg.value (p.run P.sem s).2 = reg.value s ∧ P.theirs (p.run P.sem s).2 = P.theirs s := by
  induction p generalizing s with
  | ret r => exact ⟨rfl, rfl⟩
  | call c k ih =>
    obtain ⟨hvalue, htheirs⟩ := ih _ (h.2 _) (P.sem.step c s).2
    exact ⟨hvalue.trans (h.1.value_same s), htheirs.trans (h.1.theirs_same s)⟩

theorem Once.run {p : Prog Cmd Ans ε α} (h : P.Once reg p) {s : σ} (hgood : reg.Good (reg.value s)) :
    reg.value (p.run P.sem s).2 = (P.pending reg p s).getD (reg.value s) ∧
      P.theirs (p.run P.sem s).2 = P.theirs s := by
  induction p generalizing s with
  | ret r => exact ⟨rfl, rfl⟩
  | call c k ih =>
    rcases h with ⟨hc, hk⟩ | ⟨⟨v, hc⟩, hk⟩
    · have hsame := hc.value_same s
      obtain ⟨hvalue, htheirs⟩ := ih (P.sem.step c s).1 (hk _) (hsame ▸ hgood)
      rw [hsame] at hvalue
      simp only [pending, hc.not_written]
      exact ⟨hvalue, htheirs.trans (hc.theirs_same s)⟩
    · obtain ⟨hvalue, htheirs⟩ := (hk (P.sem.step c s).1).run (P.sem.step c s).2
      simp only [pending, hc.written]
      exact ⟨hvalue.trans (hc.value s hgood), htheirs.trans (hc.theirs_same s)⟩

section

variable {c : Cmd} {k : Ans c → Prog Cmd Ans ε α} {answer : D → Ans c}
  (h : P.Transaction reg c k answer)

include h

/-- What it writes if it reads `d`. -/
theorem Transaction.pending_congr (d : D) {s u : σ} (hs : P.mine s = P.mine u) :
    P.pending reg (k (answer d)) s = P.pending reg (k (answer d)) u := by
  rcases h.goes_on d with ⟨r, hr⟩ | ⟨-, honce⟩
  · rw [hr]
    rfl
  · exact Party.pending_congr honce hs

theorem Transaction.run (s : σ) :
    reg.value ((Prog.call c k).run P.sem s).2 =
        (P.pending reg (k (answer (reg.value s))) s).getD (reg.value s) ∧
      P.theirs ((Prog.call c k).run P.sem s).2 = P.theirs s := by
  rw [Prog.run, h.step s]
  rcases h.goes_on (reg.value s) with ⟨r, hr⟩ | ⟨hgood, honce⟩
  · rw [hr]
    exact ⟨rfl, rfl⟩
  · exact honce.run hgood

end

end Party

/-! ### A program under way -/

/-- A program under way, with the value of the register that it has read. -/
structure Process (Cmd : Type) (Ans : Cmd → Type) (ε α D : Type) where
  prog : Prog Cmd Ans ε α
  seen : Option D

namespace Process

variable {Cmd σ D V W ε α : Type} {Ans : Cmd → Type} (reg : Register Cmd σ D)

/-- Its next command. -/
def step (S : Semantics Cmd Ans σ) (x : Process Cmd Ans ε α D) (s : σ) : Process Cmd Ans ε α D × σ :=
  match x.prog with
  | .ret _ => (x, s)
  | .call c k =>
    (⟨k (S.step c s).1, if reg.reads c then some (reg.value s) else x.seen⟩, (S.step c s).2)

/-- If its next command writes the register, the value there is the one it has
read. -/
def Finds (x : Process Cmd Ans ε α D) (s : σ) : Prop :=
  match x.prog with
  | .ret _ => True
  | .call c _ => ∀ v, reg.target c = some v → x.seen = some (reg.value s)

def Ended (x : Process Cmd Ans ε α D) : Prop := ∃ r, x.prog = .ret r

inductive Phase (D : Type) where
  | fresh
  | holds (d : D)
  | through

/-- Where a process is that began as `p`, with this part of its own, and writes
`f d` when it has read `d`. -/
def At (P : Party Cmd Ans σ V W) (p : Prog Cmd Ans ε α) (m : V) (f : D → Option D)
    (x : Process Cmd Ans ε α D) (s : σ) : Phase D → Prop
  | .fresh => x = ⟨p, none⟩ ∧ P.mine s = m
  | .holds d => x.seen = some d ∧ (x.Ended ∧ f d = none ∨
      reg.Good d ∧ P.Once reg x.prog ∧ P.pending reg x.prog s = f d)
  | .through => P.Quiet reg x.prog

/-- What a step can do to the register. -/
inductive Moves (f : D → Option D) : D → Phase D → D → Phase D → Prop where
  | read (r : D) : Moves f r .fresh r (.holds r)
  | work (r d : D) : Moves f r (.holds d) r (.holds d)
  | write (d v : D) (h : f d = some v) : Moves f d (.holds d) v .through
  | rest (r : D) : Moves f r .through r .through

section

variable {reg} {P : Party Cmd Ans σ V W} {c : Cmd} {k : Ans c → Prog Cmd Ans ε α} {answer : D → Ans c}
  {s₀ s : σ} {f : D → Option D} {x : Process Cmd Ans ε α D} {ph : Phase D}

/-- The other one's steps leave it where it is. -/
theorem At.beside {p : Prog Cmd Ans ε α} {m : V} (h : At reg P p m f x s ph) {t : σ}
    (hsame : P.mine t = P.mine s) : At reg P p m f x t ph := by
  cases ph with
  | fresh => exact ⟨h.1, hsame.trans h.2⟩
  | holds d =>
    obtain ⟨hseen, hend | ⟨hgood, honce, hpending⟩⟩ := h
    · exact ⟨hseen, Or.inl hend⟩
    · exact ⟨hseen, Or.inr ⟨hgood, honce, (Party.pending_congr honce hsame).trans hpending⟩⟩
  | through => exact h

/-- Its own step. -/
theorem At.step (hT : P.Transaction reg c k answer)
    (hf : ∀ d, f d = P.pending reg (k (answer d)) s₀)
    (h : At reg P (.call c k) (P.mine s₀) f x s ph) (hfinds : x.Finds reg s) :
    ∃ ph', Moves f (reg.value s) ph (reg.value (x.step reg P.sem s).2) ph' ∧
      At reg P (.call c k) (P.mine s₀) f (x.step reg P.sem s).1 (x.step reg P.sem s).2 ph' ∧
      P.theirs (x.step reg P.sem s).2 = P.theirs s := by
  obtain ⟨p, seen⟩ := x
  cases ph with
  | fresh =>
    obtain ⟨hx, hmine⟩ := h
    cases hx
    have hstep : (⟨.call c k, none⟩ : Process Cmd Ans ε α D).step reg P.sem s =
        (⟨k (answer (reg.value s)), some (reg.value s)⟩, s) := by
      simp only [Process.step, hT.reads, if_true, hT.step s]
    rw [hstep]
    refine ⟨.holds (reg.value s), .read _, ⟨rfl, ?_⟩, rfl⟩
    rw [hf]
    rcases hT.goes_on (reg.value s) with ⟨r, hr⟩ | ⟨hgood, honce⟩
    · exact Or.inl ⟨⟨r, hr⟩, by rw [hr]; rfl⟩
    · exact Or.inr ⟨hgood, honce, Party.pending_congr honce hmine⟩
  | holds d =>
    cases p with
    | ret r => exact ⟨.holds d, .work _ d, h, rfl⟩
    | call c' k' =>
      obtain ⟨hseen, ⟨⟨r, hr⟩, -⟩ | ⟨hgood, honce, hpending⟩⟩ := h
      · cases hr
      rcases honce with ⟨hc, hk⟩ | ⟨⟨v, hc⟩, hk⟩
      · have hpending' : P.pending reg (k' (P.sem.step c' s).1) (P.sem.step c' s).2 = f d := by
          rw [← hpending]
          simp only [Party.pending, hc.not_written]
        refine ⟨.holds d, ?_, ⟨?_, Or.inr ⟨hgood, hk _, hpending'⟩⟩, hc.theirs_same s⟩
        · change Moves f (reg.value s) (.holds d) (reg.value (P.sem.step c' s).2) (.holds d)
          rw [hc.value_same s]
          exact .work _ d
        · simpa only [Process.step, hc.not_read, Bool.false_eq_true, if_false] using hseen
      · -- the register still holds what was read
        have hd : reg.value s = d :=
          (Option.some_inj.mp (hseen.symm.trans (hfinds v hc.written))).symm
        have hfd : f d = some v := by
          rw [← hpending]
          simp only [Party.pending, hc.written]
        have hvalue : reg.value (P.sem.step c' s).2 = v := hc.value s (hd.symm ▸ hgood)
        refine ⟨.through, ?_, hk _, hc.theirs_same s⟩
        change Moves f (reg.value s) (.holds d) (reg.value (P.sem.step c' s).2) .through
        rw [hvalue, hd]
        exact .write d v hfd
  | through =>
    cases p with
    | ret r => exact ⟨.through, .rest _, h, rfl⟩
    | call c' k' =>
      refine ⟨.through, ?_, h.2 _, h.1.theirs_same s⟩
      change Moves f (reg.value s) .through (reg.value (P.sem.step c' s).2) .through
      rw [h.1.value_same s]
      exact .rest _

/-- A program that has ended has read, and has written what it was to write. -/
theorem At.ended {m : V} (h : At reg P (.call c k) m f x s ph) (hend : x.Ended) :
    ph = .through ∨ ∃ d, ph = .holds d ∧ f d = none := by
  obtain ⟨r, hr⟩ := hend
  cases ph with
  | fresh =>
    obtain ⟨rfl, -⟩ := h
    cases hr
  | holds d =>
    obtain ⟨-, ⟨-, hnone⟩ | ⟨-, -, hpending⟩⟩ := h
    · exact Or.inr ⟨d, rfl, hnone⟩
    · rw [hr] at hpending
      exact Or.inr ⟨d, rfl, hpending.symm⟩
  | through => exact Or.inl rfl

end

/-! ### What the register holds -/

/-- The value of the register, from what both have read and written; it was `d₀`
at first. -/
def Consistent (d₀ : D) (f g : D → Option D) (r : D) : Phase D → Phase D → Prop
  | .through, .through =>
    (∃ v, f d₀ = some v ∧ g v = some r) ∨ ∃ v, g d₀ = some v ∧ f v = some r
  | .through, y => f d₀ = some r ∧ ∀ d, y = .holds d → d = d₀ ∨ d = r
  | x, .through => g d₀ = some r ∧ ∀ d, x = .holds d → d = d₀ ∨ d = r
  | x, y => r = d₀ ∧ (∀ d, x = .holds d → d = d₀) ∧ ∀ d, y = .holds d → d = d₀

theorem Consistent.symm {d₀ r : D} {f g : D → Option D} {x y : Phase D}
    (h : Consistent d₀ f g r x y) : Consistent d₀ g f r y x := by
  cases x <;> cases y <;> first | exact h | exact Or.symm h | exact ⟨h.1, h.2.2, h.2.1⟩

theorem Consistent.moves {d₀ r r' : D} {f g : D → Option D} {x x' y : Phase D}
    (h : Consistent d₀ f g r x y) (hmoves : Moves f r x r' x') : Consistent d₀ f g r' x' y := by
  cases hmoves with
  | read =>
    cases y with
    | through =>
      refine ⟨h.1, fun d hd => ?_⟩
      cases hd
      exact Or.inr rfl
    | fresh =>
      refine ⟨h.1, fun d hd => ?_, h.2.2⟩
      cases hd
      exact h.1
    | holds e =>
      refine ⟨h.1, fun d hd => ?_, h.2.2⟩
      cases hd
      exact h.1
  | work d => exact h
  | write _ hf =>
    cases y with
    | through => exact Or.inr ⟨r, h.1, hf⟩
    | fresh =>
      refine ⟨h.1 ▸ hf, fun d hd => ?_⟩
      cases hd
    | holds e => exact ⟨h.1 ▸ hf, fun d hd => Or.inl (h.2.2 d hd)⟩
  | rest => exact h

/-- When both have ended, the register is as after one order or the other. -/
theorem Consistent.serial {d₀ r : D} {f g : D → Option D} {x y : Phase D}
    (h : Consistent d₀ f g r x y) (hx : x = .through ∨ ∃ d, x = .holds d ∧ f d = none)
    (hy : y = .through ∨ ∃ d, y = .holds d ∧ g d = none) :
    r = (g ((f d₀).getD d₀)).getD ((f d₀).getD d₀) ∨
      r = (f ((g d₀).getD d₀)).getD ((g d₀).getD d₀) := by
  -- one of the two has not written, the other perhaps
  have hone : ∀ {f g : D → Option D} {y : Phase D}, Consistent d₀ f g r .through y →
      (∃ d, y = .holds d ∧ g d = none) →
      r = (g ((f d₀).getD d₀)).getD ((f d₀).getD d₀) ∨
        r = (f ((g d₀).getD d₀)).getD ((g d₀).getD d₀) := by
    rintro f g y h ⟨d, rfl, hnone⟩
    rcases h.2 d rfl with rfl | rfl
    · exact Or.inr (by simp [hnone, h.1])
    · exact Or.inl (by simp [hnone, h.1])
  rcases hx with rfl | ⟨d, rfl, hf⟩
  · rcases hy with rfl | hy
    · rcases h with ⟨v, hf, hg⟩ | ⟨v, hg, hf⟩
      · exact Or.inl (by simp [hf, hg])
      · exact Or.inr (by simp [hf, hg])
    · exact hone h hy
  · rcases hy with rfl | ⟨e, rfl, hg⟩
    · exact (hone h.symm ⟨d, rfl, hf⟩).symm
    · obtain ⟨hr, hd, he⟩ := h
      rw [hd d rfl] at hf
      rw [he e rfl] at hg
      exact Or.inl (by simp [hr, hf, hg])

end Process

/-! ### Two programs by turns -/

/-- Two programs under way on one state. -/
structure Pair (Cmd : Type) (Ans : Cmd → Type) (ε ε' α D σ : Type) where
  left : Process Cmd Ans ε α D
  right : Process Cmd Ans ε' α D
  state : σ

inductive Side where
  | left
  | right

namespace Pair

variable {Cmd σ D V W ε ε' α : Type} {Ans : Cmd → Type} (reg : Register Cmd σ D)
  (L : Party Cmd Ans σ V W) (R : Party Cmd Ans σ W V)

def step (x : Pair Cmd Ans ε ε' α D σ) : Side → Pair Cmd Ans ε ε' α D σ
  | .left => ⟨(x.left.step reg L.sem x.state).1, x.right, (x.left.step reg L.sem x.state).2⟩
  | .right => ⟨x.left, (x.right.step reg R.sem x.state).1, (x.right.step reg R.sem x.state).2⟩

def run (x : Pair Cmd Ans ε ε' α D σ) (schedule : List Side) : Pair Cmd Ans ε ε' α D σ :=
  schedule.foldl (step reg L R) x

def Finds (x : Pair Cmd Ans ε ε' α D σ) : Side → Prop
  | .left => x.left.Finds reg x.state
  | .right => x.right.Finds reg x.state

/-- Whoever writes the register finds there what it has read. -/
def Validated : Pair Cmd Ans ε ε' α D σ → List Side → Prop
  | _, [] => True
  | x, side :: rest => x.Finds reg side ∧ Validated (x.step reg L R side) rest

def Ended (x : Pair Cmd Ans ε ε' α D σ) : Prop := x.left.Ended ∧ x.right.Ended

def start (p : Prog Cmd Ans ε α) (q : Prog Cmd Ans ε' α) (s : σ) : Pair Cmd Ans ε ε' α D σ :=
  ⟨⟨p, none⟩, ⟨q, none⟩, s⟩

section

variable {reg L R} {c : Cmd} {k : Ans c → Prog Cmd Ans ε α} {answer : D → Ans c} {c' : Cmd}
  {k' : Ans c' → Prog Cmd Ans ε' α} {answer' : D → Ans c'} {f g : D → Option D} {s : σ}
  {x : Pair Cmd Ans ε ε' α D σ}

/-- Where both are, and what the register holds. -/
def Inv (reg : Register Cmd σ D) (L : Party Cmd Ans σ V W) (R : Party Cmd Ans σ W V)
    (p : Prog Cmd Ans ε α) (q : Prog Cmd Ans ε' α) (f g : D → Option D) (s : σ)
    (x : Pair Cmd Ans ε ε' α D σ) : Prop :=
  ∃ a b, x.left.At reg L p (L.mine s) f x.state a ∧ x.right.At reg R q (R.mine s) g x.state b ∧
    Process.Consistent (reg.value s) f g (reg.value x.state) a b

variable (hleft : ∀ u, L.mine u = R.theirs u) (hright : ∀ u, R.mine u = L.theirs u)
  (hL : L.Transaction reg c k answer) (hR : R.Transaction reg c' k' answer')
  (hf : ∀ d, f d = L.pending reg (k (answer d)) s)
  (hg : ∀ d, g d = R.pending reg (k' (answer' d)) s)

include hleft hright hL hR hf hg

theorem Inv.step (h : Inv reg L R (.call c k) (.call c' k') f g s x) {side : Side}
    (hfinds : x.Finds reg side) :
    Inv reg L R (.call c k) (.call c' k') f g s (x.step reg L R side) := by
  obtain ⟨a, b, ha, hb, hcons⟩ := h
  cases side with
  | left =>
    obtain ⟨a', hmoves, ha', hsame⟩ := ha.step hL hf hfinds
    refine ⟨a', b, ha', hb.beside ?_, hcons.moves hmoves⟩
    rw [hright, hright]
    exact hsame
  | right =>
    obtain ⟨b', hmoves, hb', hsame⟩ := hb.step hR hg hfinds
    refine ⟨a, b', ha.beside ?_, hb', (hcons.symm.moves hmoves).symm⟩
    rw [hleft, hleft]
    exact hsame

theorem Inv.run (h : Inv reg L R (.call c k) (.call c' k') f g s x) {schedule : List Side}
    (hvalid : x.Validated reg L R schedule) :
    Inv reg L R (.call c k) (.call c' k') f g s (x.run reg L R schedule) := by
  induction schedule generalizing x with
  | nil => exact h
  | cons side rest ih =>
    exact ih (h.step hleft hright hL hR hf hg hvalid.1) hvalid.2

omit hf hg

/-- The register ends as after one of the two serial orders. -/
theorem serial_of_validated (s : σ) (schedule : List Side)
    (hvalid : (start (.call c k) (.call c' k') s).Validated reg L R schedule)
    (hended : ((start (.call c k) (.call c' k') s).run reg L R schedule).Ended) :
    reg.value ((start (.call c k) (.call c' k') s).run reg L R schedule).state =
        reg.value ((Prog.call c' k').run R.sem ((Prog.call c k).run L.sem s).2).2 ∨
      reg.value ((start (.call c k) (.call c' k') s).run reg L R schedule).state =
        reg.value ((Prog.call c k).run L.sem ((Prog.call c' k').run R.sem s).2).2 := by
  have hinit : Inv reg L R (.call c k) (.call c' k') (fun d => L.pending reg (k (answer d)) s)
      (fun d => R.pending reg (k' (answer' d)) s) s (start (.call c k) (.call c' k') s) :=
    ⟨.fresh, .fresh, ⟨rfl, rfl⟩, ⟨rfl, rfl⟩, rfl, (by simp), (by simp)⟩
  obtain ⟨a, b, ha, hb, hcons⟩ :=
    hinit.run hleft hright hL hR (fun _ => rfl) (fun _ => rfl) hvalid
  -- each alone, and each behind the other
  obtain ⟨hl, hl'⟩ := hL.run s
  obtain ⟨hr, hr'⟩ := hR.run s
  have hlr := (hR.run ((Prog.call c k).run L.sem s).2).1
  have hrl := (hL.run ((Prog.call c' k').run R.sem s).2).1
  rw [hR.pending_congr _ (((hright _).trans hl').trans (hright s).symm), hl] at hlr
  rw [hL.pending_congr _ (((hleft _).trans hr').trans (hleft s).symm), hr] at hrl
  rw [hlr, hrl]
  exact hcons.serial (ha.ended hended.1) (hb.ended hended.2)

end

end Pair
