import Mathlib.Data.Rat.Defs
import Mathlib.Data.List.Nodup

/-!
# JSON values as the three implementations see them

A document is kept as it is written: an object is its member list in document
order, and a repeated name stays repeated. Python's `dict`, JavaScript's
objects and Go's maps all keep the last member of a name, which is `get?`.
Integer literals (`int`) and literals with a fraction or an exponent (`dec`)
are different constructors because Go decodes only the former into an `int`.
Numbers are exact; the rounding of doubles and the nesting limits of the
decoders are not modelled.
-/

namespace Spiffile

inductive Json where
  | null
  | bool (b : Bool)
  | int (n : ℤ)
  | dec (q : ℚ)
  | str (s : String)
  | arr (xs : List Json)
  | obj (ms : List (String × Json))

/-- The members of an object, in document order. -/
abbrev Members := List (String × Json)

namespace Members

/-- The value of a member; of a repeated name the last one counts. -/
def get? : Members → String → Option Json
  | [], _ => none
  | (k, v) :: ms, name =>
    match get? ms name with
    | some w => some w
    | none => if k = name then some v else none

/-- The members a `dict`, a `Map` or a Go map holds: one per name, with its
last value. -/
def items : Members → Members
  | [] => []
  | (k, v) :: ms => if (get? ms k).isSome then items ms else (k, v) :: items ms

theorem mem_of_get? (ms : Members) (name : String) (v : Json) (h : get? ms name = some v) :
    (name, v) ∈ ms := by
  induction ms with
  | nil => simp [get?] at h
  | cons m ms ih =>
    obtain ⟨k, w⟩ := m
    simp only [get?] at h
    cases hr : get? ms name with
    | some u =>
      simp only [hr] at h
      exact List.mem_cons_of_mem _ (ih (hr.trans h))
    | none =>
      simp only [hr] at h
      by_cases hk : k = name
      · simp only [hk, if_true, Option.some.injEq] at h
        simp [hk, h]
      · simp [hk] at h

theorem get?_eq_none_iff (ms : Members) (name : String) :
    get? ms name = none ↔ name ∉ ms.map Prod.fst := by
  induction ms with
  | nil => simp [get?]
  | cons m ms ih =>
    obtain ⟨k, w⟩ := m
    simp only [get?, List.map_cons, List.mem_cons, not_or]
    cases hr : get? ms name with
    | some u =>
      have hm : name ∈ ms.map Prod.fst := List.mem_map.mpr ⟨_, mem_of_get? ms name u hr, rfl⟩
      simp [hm]
    | none =>
      have hm : name ∉ ms.map Prod.fst := ih.mp hr
      by_cases hk : k = name
      · simp [hk]
      · simp [hk, hm, Ne.symm hk]

/-- Where no name is repeated, looking a name up is membership. -/
theorem get?_eq_some_iff (ms : Members) (hn : (ms.map Prod.fst).Nodup) (name : String) (v : Json) :
    get? ms name = some v ↔ (name, v) ∈ ms := by
  refine ⟨mem_of_get? ms name v, fun h => ?_⟩
  cases hg : get? ms name with
  | none => exact absurd (List.mem_map.mpr ⟨_, h, rfl⟩) ((get?_eq_none_iff ms name).mp hg)
  | some w =>
    have hinj := List.inj_on_of_nodup_map hn h (mem_of_get? ms name w hg) rfl
    rw [(Prod.mk.inj hinj).2]

theorem mem_items_iff (ms : Members) (name : String) (v : Json) :
    (name, v) ∈ items ms ↔ get? ms name = some v := by
  induction ms with
  | nil => simp [items, get?]
  | cons m ms ih =>
    obtain ⟨k, w⟩ := m
    simp only [items, get?]
    cases hk : get? ms k with
    | some u =>
      simp only [Option.isSome_some, if_true, ih]
      cases hn : get? ms name with
      | some x => rfl
      | none =>
        have hne : k ≠ name := by
          rintro rfl
          simp [hk] at hn
        simp [hne]
    | none =>
      simp only [Option.isSome_none, Bool.false_eq_true, if_false, List.mem_cons, Prod.mk.injEq, ih]
      by_cases hne : k = name
      · subst hne
        simp [hk, eq_comm]
      · have hne' : name ≠ k := fun h => hne h.symm
        cases get? ms name <;> simp [hne, hne']

theorem items_nodup (ms : Members) : ((items ms).map Prod.fst).Nodup := by
  induction ms with
  | nil => exact List.nodup_nil
  | cons m ms ih =>
    obtain ⟨k, w⟩ := m
    simp only [items]
    split
    · exact ih
    · next hk =>
      refine List.nodup_cons.mpr ⟨fun hm => ?_, ih⟩
      obtain ⟨⟨k', v⟩, hv, hk'⟩ := List.mem_map.mp hm
      dsimp only at hk'
      subst hk'
      rw [mem_items_iff] at hv
      simp [hv] at hk

theorem get?_items (ms : Members) (name : String) : get? (items ms) name = get? ms name := by
  apply Option.ext
  intro v
  rw [get?_eq_some_iff _ (items_nodup ms), mem_items_iff]

end Members

namespace Json

/-- The value of a number literal. -/
def num? : Json → Option ℚ
  | .int n => some n
  | .dec q => some q
  | _ => none

/-- Python counts `True` and `False` as the numbers one and zero. -/
def pyNum? : Json → Option ℚ
  | .bool b => some (if b then 1 else 0)
  | v => num? v

def pyTruthy : Json → Bool
  | .null => false
  | .str s => s ≠ ""
  | .arr xs => !xs.isEmpty
  | .obj ms => !ms.isEmpty
  | v => match pyNum? v with
    | some q => q ≠ 0
    | none => false

/- Python's `==`: numbers by value, lists item by item, dicts as maps. The
recursion is on the left value; a member that a later one of its name hides
does not count. -/
mutual
def pyEq : Json → Json → Bool
  | .null, w => match w with
    | .null => true
    | _ => false
  | .str a, w => match w with
    | .str b => a == b
    | _ => false
  | .arr xs, w => match w with
    | .arr ys => pyEqList xs ys
    | _ => false
  | .obj xs, w => match w with
    | .obj ys => pyEqMembers xs ys && ys.all fun m => (Members.get? xs m.1).isSome
    | _ => false
  | v, w => match pyNum? v, pyNum? w with
    | some p, some q => p == q
    | _, _ => false

def pyEqList : List Json → List Json → Bool
  | [], ys => ys.isEmpty
  | x :: xs, ys => match ys with
    | [] => false
    | y :: ys => pyEq x y && pyEqList xs ys

def pyEqMembers : List (String × Json) → List (String × Json) → Bool
  | [], _ => true
  | (k, v) :: xs, ys =>
    ((Members.get? xs k).isSome ||
      match Members.get? ys k with
      | some w => pyEq v w
      | none => false) && pyEqMembers xs ys
end

@[simp] theorem pyEq_str (a b : String) : pyEq (.str a) (.str b) = (a == b) := rfl

/-- `dict.get` compared with `==`: a missing member reads as `None`. -/
def pyGetEq (a b : Option Json) : Bool := pyEq (a.getD .null) (b.getD .null)

/-- JavaScript's `===` on two values read from different documents; `none` is
`undefined`. Objects and arrays are equal only to themselves, so never here. -/
def jsStrictEq : Option Json → Option Json → Bool
  | none, none => true
  | some .null, some .null => true
  | some (.bool a), some (.bool b) => a == b
  | some (.str a), some (.str b) => a == b
  | some v, some w => match num? v, num? w with
    | some p, some q => p == q
    | _, _ => false
  | _, _ => false

theorem pyGetEq_str (v : Option Json) (s : String) :
    pyGetEq v (some (.str s)) = true ↔ v = some (.str s) := by
  cases v with
  | none => simp [pyGetEq, pyEq]
  | some v => cases v <;> simp [pyGetEq, pyEq, pyNum?, num?]

theorem jsStrictEq_str (v : Option Json) (s : String) :
    jsStrictEq v (some (.str s)) = true ↔ v = some (.str s) := by
  cases v with
  | none => simp [jsStrictEq]
  | some v => cases v <;> simp [jsStrictEq, num?]

theorem str_pyGetEq (s : String) (v : Option Json) :
    pyGetEq (some (.str s)) v = true ↔ v = some (.str s) := by
  cases v with
  | none => simp [pyGetEq, pyEq]
  | some v =>
    cases v with
    | str t =>
      simp only [pyGetEq, Option.getD_some, pyEq_str, beq_iff_eq, Option.some.injEq, Json.str.injEq]
      exact eq_comm
    | _ => simp [pyGetEq, pyEq]

theorem str_jsStrictEq (s : String) (v : Option Json) :
    jsStrictEq (some (.str s)) v = true ↔ v = some (.str s) := by
  cases v with
  | none => simp [jsStrictEq]
  | some v =>
    cases v with
    | str t =>
      simp only [jsStrictEq, beq_iff_eq, Option.some.injEq, Json.str.injEq]
      exact eq_comm
    | _ => simp [jsStrictEq, num?]

/-- Reading a property of a parsed value: `null` has none and throws
(`none`), a missing property is `undefined` (`some none`). No name the code
reads is defined on arrays, strings or numbers with a JSON value. -/
def jsProp? : Json → String → Option (Option Json)
  | .null, _ => none
  | .obj ms, name => some (Members.get? ms name)
  | _, _ => some none

/- Whether JavaScript can convert the value to a string: an own member named
`toString` hides the inherited method and is never callable. An array converts
its elements. -/
mutual
def jsPrints : Json → Bool
  | .arr xs => jsPrintsAll xs
  | .obj ms => (Members.get? ms "toString").isNone
  | _ => true

def jsPrintsAll : List Json → Bool
  | [] => true
  | x :: xs => jsPrints x && jsPrintsAll xs
end

end Json

end Spiffile
