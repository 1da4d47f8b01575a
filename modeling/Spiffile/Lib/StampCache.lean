import Mathlib.Data.List.Induction
import Mathlib.Data.Nat.Init
import Mathlib.Logic.Function.Basic
import Mathlib.Order.Nat
import Spiffile.Lib.Program

/-!
# Caching a file by its stamp

A file is replaced from time to time, each time under a stamp its path never
had. A source keeps the value it parsed last together with a stamp, and reads
the file again once the stamp differs. The stamp is taken before the file is
read, so a value can be kept under a stamp older than its own.
-/

namespace StampCache

/-- What stands at a path at each instant. From one instant to the next it
stays, goes, or makes way for a file under a stamp not seen there before. -/
structure Timeline (Stamp Content : Type) where
  file : ℕ → Option (Stamp × Content)
  fresh : ∀ n, file (n + 1) = file n ∨
    ∀ v ∈ file (n + 1), ∀ m ≤ n, ∀ w ∈ file m, w.1 ≠ v.1

/-- A path shows one stamp during one stretch of time only. -/
theorem Timeline.file_between {Stamp Content : Type} (T : Timeline Stamp Content) {m n k : ℕ}
    {v w : Stamp × Content} (hmn : m ≤ n) (hnk : n ≤ k) (hv : v ∈ T.file m) (hw : w ∈ T.file k)
    (hstamp : v.1 = w.1) : w ∈ T.file n := by
  induction k, hnk using Nat.le_induction with
  | base => exact hw
  | succ k hnk ih =>
    rcases T.fresh k with hsame | hfresh
    · exact ih (hsame ▸ hw)
    · exact absurd hstamp (hfresh w hw m (hmn.trans hnk) v hv)

/-! ### The source -/

inductive Cmd (Self : Type) where
  | stat
  | read
  | self
  | store (t : Self)

@[reducible] def Ans (Self Stamp Content : Type) : Cmd Self → Type
  | .stat => Option Stamp
  | .read => Option Content
  | .self => Self
  | .store _ => Unit

/-- The time and the fields of the source. -/
structure Shared (Self : Type) where
  clock : ℕ
  self : Self

section

variable {Self Stamp Content ε β : Type}

def Timeline.step (T : Timeline Stamp Content) :
    (c : Cmd Self) → Shared Self → Ans Self Stamp Content c × Shared Self
  | .stat, s => ((T.file s.clock).map Prod.fst, s)
  | .read, s => ((T.file s.clock).map Prod.snd, s)
  | .self, s => (s.self, s)
  | .store t, s => ((), { s with self := t })

def Timeline.semantics (T : Timeline Stamp Content) :
    Semantics (Cmd Self) (Ans Self Stamp Content) (Shared Self) where
  step := T.step
  Torn _ _ _ := False

/-- While a source works, time passes. -/
def Elapse (s t : Shared Self) : Prop := s.clock ≤ t.clock ∧ t.self = s.self

theorem Elapse.refl (s : Shared Self) : Elapse s s := ⟨le_refl _, rfl⟩

theorem Elapse.trans (s t u : Shared Self) (hst : Elapse s t) (htu : Elapse t u) : Elapse s u :=
  ⟨hst.1.trans htu.1, htu.2.trans hst.2⟩

/-- A source: its fields at first, the value they hold for a stamp, the fields
that hold a value under a stamp, and what becomes of a file that was read. -/
structure Source (Self Stamp Content ε β : Type) where
  new : Self
  lookup : Self → Stamp → Option β
  keep : Stamp → β → Self
  noStat : ε
  decode : Option Content → Except ε β
  lookup_new : ∀ stamp, lookup new stamp = none
  lookup_keep : ∀ {stamp b stamp' b'}, lookup (keep stamp b) stamp' = some b' →
    stamp' = stamp ∧ b' = b

namespace Source

variable (src : Source Self Stamp Content ε β)

def get : Prog (Cmd Self) (Ans Self Stamp Content) ε β := do
  match ← Prog.exec Cmd.stat with
  | none => Prog.throw src.noStat
  | some stamp =>
    let self ← Prog.exec Cmd.self
    match src.lookup self stamp with
    | some b => pure b
    | none =>
      let found ← Prog.exec Cmd.read
      let b ← Prog.lift (src.decode found)
      Prog.exec (Cmd.store (src.keep stamp b))
      pure b

/-- What a source that keeps nothing answers, from what its path shows to its
`stat` and then to its `read`. -/
def reread (statted found : Option (Stamp × Content)) : Except ε β :=
  match statted with
  | none => .error src.noStat
  | some _ => src.decode (found.map Prod.snd)

/-- A value comes from what was read. -/
theorem reread_eq_ok {src : Source Self Stamp Content ε β} (hgone : ∀ b, src.decode none ≠ .ok b)
    {v w : Option (Stamp × Content)} {b : β} (h : src.reread v w = .ok b) :
    src.reread w w = .ok b := by
  cases v with
  | none => cases h
  | some v =>
    cases w with
    | none => exact absurd h (hgone b)
    | some w => exact h

theorem reread_of_readable {src : Source Self Stamp Content ε β} {v w : Option (Stamp × Content)}
    {a b : β} (hv : src.reread v v = .ok a) (hw : src.reread w w = .ok b) :
    src.reread v w = .ok b := by
  cases v with
  | none => cases hv
  | some v =>
    cases w with
    | none => cases hw
    | some w => exact hw

variable (T : Timeline Stamp Content)

/-- What is kept under a stamp is the value of every file the path still shows
under it. -/
def Valid (s : Shared Self) : Prop :=
  ∀ stamp b, src.lookup s.self stamp = some b →
    ∀ n, s.clock ≤ n → ∀ v ∈ T.file n, v.1 = stamp → src.decode (some v.2) = .ok b

/-- The answer is one of a source that keeps nothing, within the call. -/
def Answers (start finish : ℕ) (r : Except ε β) : Prop :=
  ∃ n m, start ≤ n ∧ n ≤ m ∧ m ≤ finish ∧ r = src.reread (T.file n) (T.file m)

variable {src T}

theorem valid_new (clock : ℕ) : src.Valid T ⟨clock, src.new⟩ := by
  intro stamp b h
  rw [src.lookup_new] at h
  cases h

theorem Valid.elapse {s t : Shared Self} (h : src.Valid T s) (ht : Elapse s t) : src.Valid T t := by
  intro stamp b hl n hn
  rw [ht.2] at hl
  exact h stamp b hl n (ht.1.trans hn)

/-- A value kept under the stamp of an earlier file: that file stands there
while it is read, or never again. -/
theorem valid_keep {n m : ℕ} {stamp : Stamp} {b : β} (hnm : n ≤ m)
    (hstat : (T.file n).map Prod.fst = some stamp)
    (hread : src.decode ((T.file m).map Prod.snd) = .ok b) :
    src.Valid T ⟨m, src.keep stamp b⟩ := by
  intro stamp' b' hl k hk w hw hstamp
  obtain ⟨rfl, rfl⟩ := src.lookup_keep hl
  obtain ⟨v, hv, rfl⟩ := Option.map_eq_some_iff.mp hstat
  have hfile : T.file m = some w := T.file_between hnm hk hv hw hstamp.symm
  rw [hfile] at hread
  exact hread

theorem get_satAmong {start : ℕ} {s : Shared Self} (hstart : start ≤ s.clock)
    (hvalid : src.Valid T s) :
    src.get.SatAmong T.semantics Elapse s fun r t =>
      src.Valid T t ∧ src.Answers T start t.clock r := by
  unfold get
  rw [Prog.satAmong_exec_bind]
  intro t ht
  have hstart' := hstart.trans ht.1
  have hvalid' := hvalid.elapse ht
  dsimp only [Timeline.semantics, Timeline.step]
  cases hfile : T.file t.clock with
  | none =>
    intro u hu
    exact ⟨hvalid'.elapse hu, t.clock, t.clock, hstart', le_refl _, hu.1,
      by rw [hfile, reread]⟩
  | some v =>
    obtain ⟨stamp, content⟩ := v
    simp only [Option.map_some]
    rw [Prog.satAmong_exec_bind]
    intro u hu
    dsimp only [Timeline.semantics, Timeline.step]
    cases hl : src.lookup u.self stamp with
    | some b =>
      -- a file of this stamp stood there at the `stat`
      have hdecode : src.decode (some content) = .ok b :=
        hvalid' stamp b (by rw [← hu.2]; exact hl) t.clock (le_refl _) _ hfile rfl
      intro w hw
      exact ⟨(hvalid'.elapse hu).elapse hw, t.clock, t.clock, hstart', le_refl _,
        hu.1.trans hw.1, by rw [hfile, reread, Option.map_some, hdecode]⟩
    | none =>
      simp only []
      rw [Prog.satAmong_exec_bind]
      intro w hw
      have hle : t.clock ≤ w.clock := hu.1.trans hw.1
      have hreread : src.reread (T.file t.clock) (T.file w.clock) =
          src.decode ((T.file w.clock).map Prod.snd) := by rw [hfile, reread]
      rw [Prog.satAmong_lift_bind]
      dsimp only [Timeline.semantics, Timeline.step]
      cases hdecode : src.decode ((T.file w.clock).map Prod.snd) with
      | error e =>
        intro x hx
        exact ⟨((hvalid'.elapse hu).elapse hw).elapse hx, t.clock, w.clock, hstart', hle, hx.1,
          by rw [hreread, hdecode]⟩
      | ok b =>
        have hkeep : src.Valid T ⟨w.clock, src.keep stamp b⟩ :=
          valid_keep hle (by rw [hfile]; rfl) hdecode
        intro x hx y hy
        have hkept : Elapse ⟨w.clock, src.keep stamp b⟩ y := ⟨hx.1.trans hy.1, hy.2⟩
        exact ⟨hkeep.elapse hkept, t.clock, w.clock, hstart', hle, hx.1.trans hy.1,
          by rw [hreread, hdecode]⟩

/-- An answered value is what stood at the path at an instant of the call. -/
theorem Answers.found {start finish : ℕ} {b : β} (hgone : ∀ b, src.decode none ≠ .ok b)
    (h : src.Answers T start finish (.ok b)) :
    ∃ n, start ≤ n ∧ n ≤ finish ∧ src.decode ((T.file n).map Prod.snd) = .ok b := by
  obtain ⟨n, m, hn, hnm, hm, hr⟩ := h
  have hread := reread_eq_ok hgone hr.symm
  refine ⟨m, hn.trans hnm, hm, ?_⟩
  cases hfile : T.file m with
  | none =>
    rw [hfile] at hread
    cases hread
  | some v =>
    rw [hfile] at hread
    exact hread

/-- A call answers a value if each instant of it shows one. -/
theorem Answers.readable {start finish : ℕ} {r : Except ε β} (hgone : ∀ b, src.decode none ≠ .ok b)
    (h : src.Answers T start finish r)
    (hall : ∀ n, start ≤ n → n ≤ finish → ∃ b, src.decode ((T.file n).map Prod.snd) = .ok b) :
    ∃ b, r = .ok b := by
  obtain ⟨n, m, hn, hnm, hm, rfl⟩ := h
  obtain ⟨a, ha⟩ := hall n hn (hnm.trans hm)
  obtain ⟨b, hb⟩ := hall m (hn.trans hnm) hm
  cases hfile : T.file n with
  | none =>
    rw [hfile] at ha
    exact absurd ha (hgone a)
  | some v => exact ⟨b, hb⟩

/-- A new source that is called at `start` may answer the same by `finish`. -/
theorem Answers.mayEnd {start finish : ℕ} {r : Except ε β} (h : src.Answers T start finish r) :
    ∃ self, src.get.MayEnd T.semantics Elapse ⟨start, src.new⟩ r ⟨finish, self⟩ := by
  obtain ⟨n, m, hn, hnm, hm, rfl⟩ := h
  have hread : Elapse ⟨n, src.new⟩ ⟨m, src.new⟩ := ⟨hnm, rfl⟩
  simp only [get, Prog.mayEnd_exec_bind]
  cases hfile : T.file n with
  | none =>
    refine ⟨src.new, ⟨n, src.new⟩, ⟨hn, rfl⟩, ?_⟩
    dsimp only [Timeline.semantics, Timeline.step]
    rw [hfile, Option.map_none, Prog.mayEnd_throw]
    exact ⟨rfl, hnm.trans hm, rfl⟩
  | some v =>
    -- it keeps nothing yet, so the file is read
    have hmiss := src.lookup_new v.1
    cases hdecode : src.decode ((T.file m).map Prod.snd) with
    | error e =>
      refine ⟨src.new, ⟨n, src.new⟩, ⟨hn, rfl⟩, ?_⟩
      dsimp only [Timeline.semantics, Timeline.step]
      rw [hfile, Option.map_some, Prog.mayEnd_exec_bind]
      refine ⟨⟨n, src.new⟩, Elapse.refl _, ?_⟩
      dsimp only [Timeline.step]
      rw [hmiss, Prog.mayEnd_exec_bind]
      refine ⟨⟨m, src.new⟩, hread, ?_⟩
      dsimp only [Timeline.step]
      rw [Prog.mayEnd_lift_bind, hdecode]
      exact ⟨by rw [reread, hdecode], hm, rfl⟩
    | ok b =>
      refine ⟨src.keep v.1 b, ⟨n, src.new⟩, ⟨hn, rfl⟩, ?_⟩
      dsimp only [Timeline.semantics, Timeline.step]
      rw [hfile, Option.map_some, Prog.mayEnd_exec_bind]
      refine ⟨⟨n, src.new⟩, Elapse.refl _, ?_⟩
      dsimp only [Timeline.step]
      rw [hmiss, Prog.mayEnd_exec_bind]
      refine ⟨⟨m, src.new⟩, hread, ?_⟩
      dsimp only [Timeline.step]
      rw [Prog.mayEnd_lift_bind, hdecode]
      exact ⟨⟨m, src.new⟩, Elapse.refl _, by rw [reread, hdecode], hm, rfl⟩

end Source

end

/-! ### Callers -/

/-- How far a caller is: outside, before the lock, or with what is left to do. -/
inductive Phase (Self Stamp Content ε β : Type) where
  | idle
  | waiting (start : ℕ)
  | inside (start : ℕ) (p : Prog (Cmd Self) (Ans Self Stamp Content) ε β)

structure Completed (ε β : Type) where
  start : ℕ
  finish : ℕ
  result : Except ε β

structure System (ι Self Stamp Content ε β : Type) where
  shared : Shared Self
  holder : Option ι
  callers : ι → Phase Self Stamp Content ε β
  log : List (Completed ε β)

section

variable {ι Self Stamp Content ε β : Type} (src : Source Self Stamp Content ε β)
  (T : Timeline Stamp Content)

def System.initial (ι : Type) (src : Source Self Stamp Content ε β) :
    System ι Self Stamp Content ε β :=
  ⟨⟨0, src.new⟩, none, fun _ => .idle, []⟩

/-- What the lock is for, and what each caller is about to answer. -/
structure Consistent (s : System ι Self Stamp Content ε β) : Prop where
  valid : s.holder = none → src.Valid T s.shared
  waiting : ∀ c start, s.callers c = .waiting start → start ≤ s.shared.clock
  inside : ∀ c start p, s.callers c = .inside start p →
    s.holder = some c ∧
      p.SatAmong T.semantics Elapse s.shared fun r t => src.Valid T t ∧ src.Answers T start t.clock r
  log : ∀ call ∈ s.log, src.Answers T call.start call.finish call.result

variable {src T}

theorem consistent_initial : Consistent src T (System.initial ι src) where
  valid _ := Source.valid_new 0
  waiting _ _ h := by cases h
  inside _ _ _ h := by cases h
  log _ h := by cases h

/-- Two callers are never inside at once. -/
theorem Consistent.eq_of_holder {s : System ι Self Stamp Content ε β} (hs : Consistent src T s)
    {c d : ι} {start : ℕ} {p : Prog (Cmd Self) (Ans Self Stamp Content) ε β}
    (hholder : s.holder = some c) (hd : s.callers d = .inside start p) : d = c := by
  have hd' := (hs.inside d start p hd).1
  rw [hholder] at hd'
  exact (Option.some_inj.mp hd').symm

theorem run_clock {α : Type} (p : Prog (Cmd Self) (Ans Self Stamp Content) ε α) (s : Shared Self) :
    (p.run T.semantics s).2.clock = s.clock := by
  induction p generalizing s with
  | ret r => rfl
  | call c k ih =>
    have hstep : (T.step c s).2.clock = s.clock := by cases c <;> rfl
    exact (ih _ _).trans hstep

/-- With the lock free, a call that time stands still for answers as a new
source would. -/
theorem Consistent.run_get {s : System ι Self Stamp Content ε β} (h : Consistent src T s)
    (hfree : s.holder = none) :
    (src.get.run T.semantics s.shared).1 =
      src.reread (T.file s.shared.clock) (T.file s.shared.clock) := by
  have hsat := Source.get_satAmong (le_refl s.shared.clock) (h.valid hfree)
  obtain ⟨-, n, m, hn, hnm, hm, hr⟩ := hsat.run Elapse.refl
  rw [run_clock] at hm
  rw [hr, le_antisymm (hnm.trans hm) hn, le_antisymm hm (hn.trans hnm)]

variable [DecidableEq ι]

def System.move (s : System ι Self Stamp Content ε β) (c : ι) (p : Phase Self Stamp Content ε β) :
    ι → Phase Self Stamp Content ε β := Function.update s.callers c p

theorem System.move_eq {s : System ι Self Stamp Content ε β} {c d : ι}
    {p q : Phase Self Stamp Content ε β} (h : s.move c p d = q) :
    (d = c ∧ p = q) ∨ (d ≠ c ∧ s.callers d = q) := by
  by_cases hdc : d = c
  · subst hdc
    exact Or.inl ⟨rfl, by rw [← h, System.move, Function.update_self]⟩
  · exact Or.inr ⟨hdc, by rw [← h, System.move, Function.update_of_ne hdc]⟩

variable (src T)

/-- Time passes, or a caller does the next thing; the lock has one holder. -/
inductive Step : System ι Self Stamp Content ε β → System ι Self Stamp Content ε β → Prop where
  | tick (s) : Step s { s with shared := { s.shared with clock := s.shared.clock + 1 } }
  | call (s) (c : ι) (h : s.callers c = .idle) :
    Step s { s with callers := s.move c (.waiting s.shared.clock) }
  | lock (s) (c : ι) (start : ℕ) (h : s.callers c = .waiting start) (hfree : s.holder = none) :
    Step s { s with holder := some c, callers := s.move c (.inside start src.get) }
  | exec (s) (c : ι) (start : ℕ) (cmd : Cmd Self)
    (k : Ans Self Stamp Content cmd → Prog (Cmd Self) (Ans Self Stamp Content) ε β)
    (h : s.callers c = .inside start (.call cmd k)) :
    Step s { s with
      shared := (T.step cmd s.shared).2
      callers := s.move c (.inside start (k (T.step cmd s.shared).1)) }
  | unlock (s) (c : ι) (start : ℕ) (r : Except ε β) (h : s.callers c = .inside start (.ret r)) :
    Step s { s with
      holder := none
      callers := s.move c .idle
      log := ⟨start, s.shared.clock, r⟩ :: s.log }

def Reachable (s : System ι Self Stamp Content ε β) : Prop :=
  Relation.ReflTransGen (Step src T) (System.initial ι src) s

variable {src T}

theorem Consistent.step {s t : System ι Self Stamp Content ε β} (hs : Consistent src T s)
    (h : Step src T s t) : Consistent src T t := by
  cases h with
  | tick =>
    have helapse : Elapse s.shared { s.shared with clock := s.shared.clock + 1 } :=
      ⟨Nat.le_succ _, rfl⟩
    exact {
      valid := fun hfree => (hs.valid hfree).elapse helapse
      waiting := fun c start hc => (hs.waiting c start hc).trans (Nat.le_succ _)
      inside := fun c start p hc =>
        ⟨(hs.inside c start p hc).1, (hs.inside c start p hc).2.env Elapse.trans helapse⟩
      log := hs.log }
  | call c hc =>
    refine ⟨hs.valid, fun d start hd => ?_, fun d start p hd => ?_, hs.log⟩
    · obtain ⟨-, hp⟩ | ⟨-, hd⟩ := System.move_eq hd
      · cases hp
        exact le_refl _
      · exact hs.waiting d start hd
    · obtain ⟨-, hp⟩ | ⟨-, hd⟩ := System.move_eq hd
      · cases hp
      · exact hs.inside d start p hd
  | lock c start hc hfree =>
    refine ⟨fun h => by simp at h, fun d start' hd => ?_, fun d start' p hd => ?_, hs.log⟩
    · obtain ⟨-, hp⟩ | ⟨-, hd⟩ := System.move_eq hd
      · cases hp
      · exact hs.waiting d start' hd
    · obtain ⟨rfl, hp⟩ | ⟨-, hd⟩ := System.move_eq hd
      · cases hp
        exact ⟨rfl, Source.get_satAmong (hs.waiting d start hc) (hs.valid hfree)⟩
      · -- nobody else is inside while the lock is free
        rw [(hs.inside d start' p hd).1] at hfree
        cases hfree
  | exec c start cmd k hc =>
    obtain ⟨hholder, hsat⟩ := hs.inside c start _ hc
    have hclock : (T.step cmd s.shared).2.clock = s.shared.clock := by cases cmd <;> rfl
    refine ⟨fun h => by simp [hholder] at h, fun d start' hd => ?_, fun d start' p hd => ?_, hs.log⟩
    · obtain ⟨-, hp⟩ | ⟨-, hd⟩ := System.move_eq hd
      · cases hp
      · exact hclock ▸ hs.waiting d start' hd
    · obtain ⟨rfl, hp⟩ | ⟨hdc, hd⟩ := System.move_eq hd
      · cases hp
        exact ⟨hholder, hsat s.shared (Elapse.refl _)⟩
      · exact absurd (hs.eq_of_holder hholder hd) hdc
  | unlock c start r hc =>
    obtain ⟨hholder, hsat⟩ := hs.inside c start _ hc
    obtain ⟨hvalid, hanswer⟩ := hsat s.shared (Elapse.refl _)
    refine ⟨fun _ => hvalid, fun d start' hd => ?_, fun d start' p hd => ?_, fun call hcall => ?_⟩
    · obtain ⟨-, hp⟩ | ⟨-, hd⟩ := System.move_eq hd
      · cases hp
      · exact hs.waiting d start' hd
    · obtain ⟨-, hp⟩ | ⟨hdc, hd⟩ := System.move_eq hd
      · cases hp
      · exact absurd (hs.eq_of_holder hholder hd) hdc
    · rcases List.mem_cons.mp hcall with rfl | hcall
      · exact hanswer
      · exact hs.log call hcall

theorem Reachable.consistent {s : System ι Self Stamp Content ε β} (h : Reachable src T s) :
    Consistent src T s := by
  induction h with
  | refl => exact consistent_initial
  | tail _ hlast ih => exact ih.step hlast

/-- A caller that is inside may run to its end while time stands still. -/
theorem Reachable.runs {s : System ι Self Stamp Content ε β} (h : Reachable src T s) {c : ι}
    {start : ℕ} {p : Prog (Cmd Self) (Ans Self Stamp Content) ε β}
    (hc : s.callers c = .inside start p) :
    ∃ t, Reachable src T t ∧ t.shared = (p.run T.semantics s.shared).2 ∧
      t.callers c = .inside start (.ret (p.run T.semantics s.shared).1) := by
  induction p generalizing s with
  | ret r => exact ⟨s, h, rfl, hc⟩
  | call cmd k ih => exact ih _ (h.tail (.exec s c start cmd k hc)) (Function.update_self c _ _)

/-- With the lock free, a caller may call and be answered within one instant. -/
theorem Reachable.answers {s : System ι Self Stamp Content ε β} (h : Reachable src T s) {c : ι}
    (hfree : s.holder = none) (hidle : s.callers c = .idle) :
    ∃ t : System ι Self Stamp Content ε β, Reachable src T t ∧ ⟨s.shared.clock, s.shared.clock,
      src.reread (T.file s.shared.clock) (T.file s.shared.clock)⟩ ∈ t.log := by
  have hcall := h.tail (.call s c hidle)
  have hlock := hcall.tail (.lock _ c s.shared.clock (Function.update_self c _ _) hfree)
  obtain ⟨t, ht, hshared, hc⟩ := Reachable.runs hlock (Function.update_self c _ _)
  have hdone := ht.tail (.unlock t c _ _ hc)
  have hclock : t.shared.clock = s.shared.clock := by rw [hshared, run_clock]
  refine ⟨_, hdone, List.mem_cons.mpr (Or.inl ?_)⟩
  rw [hclock]
  exact congrArg (Completed.mk _ _) (h.consistent.run_get hfree).symm

end

/-! ### Calls one after another -/

section

variable {Self Input ε β : Type} (call : Input → Self → Except ε β × Self)

/-- The fields after a sequence of calls. -/
def afterCalls (self : Self) (inputs : List Input) : Self :=
  inputs.foldl (fun self i => (call i self).2) self

variable (right : Input → β → Prop)

/-- A call that fails leaves the fields alone, and one that answers is right. -/
structure AtomicCall (fields : Self) (i : Input) : Prop where
  kept : ∀ e, (call i fields).1 = .error e → (call i fields).2 = fields
  answered : ∀ b, (call i fields).1 = .ok b → right i b

/-- Every call of the sequence, in the state the ones before it have left. -/
def AtomicRun (self : Self) (inputs : List Input) : Prop :=
  ∀ before i, before ++ [i] <+: inputs → AtomicCall call right (afterCalls call self before) i

variable {call right}

/-- Where an invariant makes the safe inputs those of the atomic calls, and lasts
over them, a run is atomic exactly if it meets safe inputs alone. -/
theorem atomicRun_iff {self : Self} {I : Self → Prop} {Safe : Input → Prop} (hself : I self)
    (hcall : ∀ self i, I self → (AtomicCall call right self i ↔ Safe i))
    (hkeep : ∀ self i, I self → Safe i → I (call i self).2) (inputs : List Input) :
    AtomicRun call right self inputs ↔ ∀ i ∈ inputs, Safe i := by
  have hafter : ∀ before : List Input, (∀ i ∈ before, Safe i) → I (afterCalls call self before) := by
    intro before
    induction before using List.reverseRecOn with
    | nil => exact fun _ => hself
    | append_singleton before i ih =>
      intro hsafe
      rw [afterCalls, List.foldl_append]
      exact hkeep _ i (ih fun j hj => hsafe j (List.mem_append_left _ hj)) (hsafe i (by simp))
  constructor
  · induction inputs using List.reverseRecOn with
    | nil => simp
    | append_singleton inputs i ih =>
      intro hrun
      have hbefore := ih fun before j hj => hrun before j (hj.trans (List.prefix_append _ _))
      intro j hj
      rcases List.mem_append.mp hj with hj | hj
      · exact hbefore j hj
      · rw [List.mem_singleton.mp hj]
        exact (hcall _ i (hafter inputs hbefore)).mp (hrun inputs i (List.prefix_refl _))
  · intro hsafe before i hi
    refine (hcall _ i (hafter before fun j hj => ?_)).mpr ?_
    · exact hsafe j (hi.subset (List.mem_append_left _ hj))
    · exact hsafe i (hi.subset (by simp))

end

end StampCache
