import Std.Data.String.ToNat
import Mathlib.Data.Rat.Encodable
import Spiffile.Lib.StampCache
import Spiffile.Bundle

/-!
# Hot reload

`FileBundleSource.get` of the three implementations, as sources that cache a
file by its stamp. The stamp is made of the modification time, as the platform
reports it, and the size. A file is JSON or not; producers replace it at once.
Go takes a mutex; the calls of the other two follow one another, which is the
same lock here.
-/

namespace Spiffile

open StampCache

namespace Py

/-- The attributes `_stat` and `_bundle`. -/
structure FileBundleSource where
  stat : Option (ℚ × ℕ)
  bundle : Option (Bundle Json)

/-- The answer to `read_text`, loaded and parsed. -/
def loads : Option (Option Json) → Except Exn (Bundle Json)
  | some (some doc) => fromDict doc
  | some none => .error (.invalidBundle .unreadable)
  | none => .error (.invalidBundle .unreadable)

/-- `st_mtime` and `st_size` are compared as a tuple. -/
def fileBundleSource :
    Source FileBundleSource (ℚ × ℕ) (Option Json) Exn (Bundle Json) where
  new := ⟨none, none⟩
  lookup self current :=
    match self.bundle with
    | some bundle => if current ≠ self.stat then none else some bundle
    | none => none
  keep current bundle := ⟨some current, some bundle⟩
  noStat := .osError
  decode := loads
  lookup_new _ := rfl
  lookup_keep h := by
    simp only [ne_eq, Option.some.injEq, ite_not, Option.ite_none_right_eq_some] at h
    exact ⟨h.1, h.2.symm⟩

end Py

namespace Ts

/-- How a template prints a number; `Number` reads the number back. -/
structure NumberText where
  text : ℚ → String
  injective : Function.Injective text

instance : Nonempty NumberText :=
  ⟨⟨fun q => toString (Encodable.encode q),
    fun _ _ h => Encodable.encode_injective (Nat.repr_injective h)⟩⟩

def NumberText.stamp (numbers : NumberText) (stat : ℚ × ℕ) : String :=
  numbers.text stat.1 ++ ":" ++ toString stat.2

theorem colon_notMem (n : ℕ) : ':' ∉ (toString n).toList := by
  intro h
  rw [Nat.toString_eq_repr, Nat.repr_eq_ofList_toDigits, String.toList_ofList] at h
  exact absurd (Nat.isDigit_of_mem_toDigits (by decide) (by decide) h) (by decide)

/-- The last colon of a stamp is the one between its parts. -/
theorem NumberText.stamp_injective (numbers : NumberText) :
    Function.Injective numbers.stamp := by
  rintro ⟨m, k⟩ ⟨m', k'⟩ h
  have hlists : (numbers.text m).toList ++ ':' :: (toString k).toList =
      (numbers.text m').toList ++ ':' :: (toString k').toList := by
    simpa [NumberText.stamp, -Nat.toString_eq_repr] using congrArg String.toList h
  have hsplit := congrArg (List.splitOn ':') hlists
  rw [List.splitOn_append_cons_self, List.splitOn_append_cons_self,
    List.splitOn_eq_singleton (colon_notMem k), List.splitOn_eq_singleton (colon_notMem k')] at hsplit
  obtain ⟨hm, hk⟩ := List.append_inj' hsplit rfl
  have hinv : Function.LeftInverse ([':'].intercalate) (List.splitOn ':') :=
    fun _ => List.intercalate_splitOn ':'
  have htext : (numbers.text m).toList = (numbers.text m').toList := hinv.injective hm
  have hsize : (toString k).toList = (toString k').toList := List.singleton_inj.mp hk
  rw [numbers.injective (String.toList_inj.mp htext), Nat.repr_injective (String.toList_inj.mp hsize)]

/-- The fields `stamp` and `bundle`. -/
structure FileBundleSource where
  stamp : Option String
  bundle : Option (Bundle String)

def loads : Option (Option Json) → Except Exn (Bundle String)
  | some (some doc) => fromDocument doc
  | some none => .error (.invalidBundle .unreadable)
  | none => .error (.invalidBundle .unreadable)

/-- `mtimeMs` and `size` are compared as they print. -/
def fileBundleSource (numbers : NumberText) :
    Source FileBundleSource (ℚ × ℕ) (Option Json) Exn (Bundle String) where
  new := ⟨none, none⟩
  lookup this stat :=
    match this.bundle with
    | some bundle => if numbers.stamp stat ≠ this.stamp then none else some bundle
    | none => none
  keep stat bundle := ⟨some (numbers.stamp stat), some bundle⟩
  noStat := .systemError
  decode := loads
  lookup_new _ := rfl
  lookup_keep h := by
    simp only [ne_eq, Option.some.injEq, ite_not, Option.ite_none_right_eq_some] at h
    exact ⟨numbers.stamp_injective h.1, h.2.symm⟩

end Ts

namespace Go

structure FileBundleSource where
  mtime : ℤ
  size : ℤ
  bundle : Option (Bundle String)

def load : Option (Option Json) → Except Err (Bundle String)
  | some (some doc) => (parseBundle doc).map Prod.fst
  | some none => .error .notJson
  | none => .error .os

/-- `UnixNano` and the size are compared one by one. -/
def fileBundleSource :
    Source FileBundleSource (ℤ × ℤ) (Option Json) Err (Bundle String) where
  new := ⟨0, 0, none⟩
  lookup s info :=
    match s.bundle with
    | some bundle => if info.1 = s.mtime ∧ info.2 = s.size then some bundle else none
    | none => none
  keep info bundle := ⟨info.1, info.2, some bundle⟩
  noStat := .os
  decode := load
  lookup_new _ := rfl
  lookup_keep h := by
    simp only [Option.ite_none_right_eq_some, Option.some.injEq] at h
    exact ⟨Prod.ext h.1.1 h.1.2, h.2.symm⟩

end Go

/-! ### Linearizability -/

section

variable {Self Stamp ε β : Type}

/-- What a path shows, without its stamp. -/
def bundleFileAt (v : Option (Stamp × Option Json)) : BundleFile :=
  match v with
  | none => .missing
  | some (_, none) => .notJson
  | some (_, some d) => .doc d

/-- Every run of a source, with any number of callers and any producer. -/
structure Linearizable (src : Source Self Stamp (Option Json) ε β)
    (readBundle : BundleFile → Except ε β) : Prop where
  /-- An answer is the parse of what stood at the path at an instant of the call. -/
  returned : ∀ {ι : Type} [DecidableEq ι] {T : Timeline Stamp (Option Json)}
    {s : System ι Self Stamp (Option Json) ε β}, Reachable src T s →
    ∀ call ∈ s.log, ∀ b, call.result = .ok b →
      ∃ n, call.start ≤ n ∧ n ≤ call.finish ∧ readBundle (bundleFileAt (T.file n)) = .ok b
  /-- A call fails only if at some instant of it there was no readable bundle. -/
  recovers : ∀ {ι : Type} [DecidableEq ι] {T : Timeline Stamp (Option Json)}
    {s : System ι Self Stamp (Option Json) ε β}, Reachable src T s →
    ∀ call ∈ s.log,
      (∀ n, call.start ≤ n → n ≤ call.finish →
        ∃ b, readBundle (bundleFileAt (T.file n)) = .ok b) →
      ∃ b, call.result = .ok b
  /-- Between two calls the next one answers what is at the path now. -/
  next : ∀ {ι : Type} [DecidableEq ι] {T : Timeline Stamp (Option Json)}
    {s : System ι Self Stamp (Option Json) ε β}, Reachable src T s → s.holder = none →
    (src.get.run T.semantics s.shared).1 = readBundle (bundleFileAt (T.file s.shared.clock))
  /-- A source that has read nothing yet may answer each call the same. -/
  indistinguishable : ∀ {ι : Type} [DecidableEq ι] {T : Timeline Stamp (Option Json)}
    {s : System ι Self Stamp (Option Json) ε β}, Reachable src T s →
    ∀ call ∈ s.log, ∃ self, src.get.MayEnd T.semantics Elapse ⟨call.start, src.new⟩ call.result
      ⟨call.finish, self⟩

theorem linearizable_of_reread {src : Source Self Stamp (Option Json) ε β}
    {readBundle : BundleFile → Except ε β}
    (hread : ∀ v, src.reread v v = readBundle (bundleFileAt v))
    (hgone : ∀ b, src.decode none ≠ .ok b) : Linearizable src readBundle where
  returned h call hcall b hb := by
    obtain ⟨n, m, hn, hnm, hm, hr⟩ := h.consistent.log call hcall
    rw [hb] at hr
    exact ⟨m, hn.trans hnm, hm, by rw [← hread, Source.reread_eq_ok hgone hr.symm]⟩
  recovers h call hcall hok := by
    obtain ⟨n, m, hn, hnm, hm, hr⟩ := h.consistent.log call hcall
    obtain ⟨a, ha⟩ := hok n hn (hnm.trans hm)
    obtain ⟨b, hb⟩ := hok m (hn.trans hnm) hm
    rw [← hread] at ha hb
    exact ⟨b, by rw [hr, Source.reread_of_readable ha hb]⟩
  next h hfree := by rw [h.consistent.run_get hfree, hread]
  indistinguishable h call hcall := (h.consistent.log call hcall).mayEnd

end

theorem py_reread (v : Option ((ℚ × ℕ) × Option Json)) :
    Py.fileBundleSource.reread v v = Py.readBundle (bundleFileAt v) := by
  obtain - | ⟨stat, - | d⟩ := v <;> rfl

theorem ts_reread (numbers : Ts.NumberText) (v : Option ((ℚ × ℕ) × Option Json)) :
    (Ts.fileBundleSource numbers).reread v v = Ts.sourceGet (bundleFileAt v) := by
  obtain - | ⟨stat, - | d⟩ := v <;> rfl

theorem go_reread (v : Option ((ℤ × ℤ) × Option Json)) :
    Go.fileBundleSource.reread v v = Go.readBundle (bundleFileAt v) := by
  obtain - | ⟨stat, - | d⟩ := v <;> rfl

theorem hot_reload_linearizable :
    Linearizable Py.fileBundleSource Py.readBundle ∧
      (∀ numbers, Linearizable (Ts.fileBundleSource numbers) Ts.sourceGet) ∧
      Linearizable Go.fileBundleSource Go.readBundle := by
  refine ⟨linearizable_of_reread py_reread ?_,
    fun numbers => linearizable_of_reread (ts_reread numbers) ?_, linearizable_of_reread go_reread ?_⟩
  · rintro b ⟨⟩
  · rintro b ⟨⟩
  · rintro b ⟨⟩

/-! ### A call that a replacement comes into -/

namespace Sample

/-- An empty bundle, replaced at instant 1 by that of another trust domain. -/
def replaced : Timeline (ℚ × ℕ) (Option Json) where
  file n := if n = 0 then some ((0, 76), some (document (.str "a.b") ∅))
    else some ((1, 76), some (document (.str "c.d") ∅))
  fresh n := by
    by_cases hn : n = 0
    · subst hn
      refine Or.inr fun v hv m hm w hw => ?_
      rw [Nat.le_zero.mp hm, if_pos rfl] at hw
      rw [if_neg (by decide)] at hv
      cases hv
      cases hw
      decide
    · exact Or.inl (by rw [if_neg hn, if_neg (Nat.succ_ne_zero n)])

/-- A call whose `read` finds the second bundle, after its `stat` of the first. -/
theorem overtaken :
    ∃ s : System Unit Py.FileBundleSource (ℚ × ℕ) (Option Json) Py.Exn (Bundle Json),
      Reachable Py.fileBundleSource replaced s ∧
        s.shared.self = ⟨some (0, 76), some ⟨.str "c.d", ∅⟩⟩ ∧
        s.log = [⟨0, 1, .ok ⟨.str "c.d", ∅⟩⟩] := by
  have hcall : Reachable Py.fileBundleSource replaced _ :=
    .single (.call (System.initial Unit Py.fileBundleSource) () rfl)
  have hlock := hcall.tail (.lock _ () 0 rfl rfl)
  have hstat := hlock.tail (.exec _ () 0 .stat _ rfl)
  have hself := hstat.tail (.exec _ () 0 .self _ rfl)
  have hreplaced := hself.tail (.tick _)
  have hread := hreplaced.tail (.exec _ () 0 .read _ rfl)
  have hstore := hread.tail (.exec _ () 0 (.store _) _ rfl)
  exact ⟨_, hstore.tail (.unlock _ () 0 _ rfl), rfl, rfl⟩

end Sample

theorem hot_reload_linearizable_sample :
    ∃ s : System Unit Py.FileBundleSource (ℚ × ℕ) (Option Json) Py.Exn (Bundle Json),
      Reachable Py.fileBundleSource Sample.replaced s ∧ ∀ call ∈ s.log, ∀ b, call.result = .ok b →
        ∃ n, call.start ≤ n ∧ n ≤ call.finish ∧
          Py.readBundle (bundleFileAt (Sample.replaced.file n)) = .ok b := by
  obtain ⟨s, hs, -, -⟩ := Sample.overtaken
  exact ⟨s, hs, hot_reload_linearizable.1.returned hs⟩

end Spiffile
