import Mathlib.Data.List.Basic
import Mathlib.Tactic.IntervalCases

/-!
# Texts as code units

A text in memory is a list of numbers: code points, UTF-16 units or UTF-8
bytes. The three encodings leave ASCII as it is and use only larger units for
every other character, so that tests and cuts at ASCII units do the same on the
units as on the characters.
-/

namespace Units

/-- ASCII characters stand for themselves, all others for units above ASCII. -/
structure Transparent (enc : Char → List ℕ) : Prop where
  ascii : ∀ c, c.toNat < 128 → enc c = [c.toNat]
  ne_nil : ∀ c, 128 ≤ c.toNat → enc c ≠ []
  other : ∀ c, 128 ≤ c.toNat → ∀ u ∈ enc c, 128 ≤ u

def codePoints (c : Char) : List ℕ := [c.toNat]

def utf16 (c : Char) : List ℕ :=
  if c.toNat < 0x10000 then [c.toNat]
  else [0xD800 + (c.toNat - 0x10000) / 0x400, 0xDC00 + (c.toNat - 0x10000) % 0x400]

def utf8 (c : Char) : List ℕ := (String.utf8EncodeChar c).map UInt8.toNat

theorem codePoints_transparent : Transparent codePoints := by
  constructor
  · intro c _
    rfl
  · intro c _
    exact List.cons_ne_nil _ _
  · intro c hc u hu
    rwa [List.mem_singleton.mp hu]

theorem utf16_transparent : Transparent utf16 := by
  constructor
  · intro c hc
    rw [utf16, if_pos (by omega)]
  · intro c _
    unfold utf16
    split <;> exact List.cons_ne_nil _ _
  · intro c hc u hu
    unfold utf16 at hu
    split at hu
    · rwa [List.mem_singleton.mp hu]
    · simp only [List.mem_cons, List.not_mem_nil, or_false] at hu
      omega

theorem utf8_transparent : Transparent utf8 := by
  have hval : ∀ c : Char, c.val.toNat = c.toNat := fun _ => rfl
  constructor
  · intro c hc
    have hle : c.val.toNat ≤ 0x7f := by
      rw [hval]
      omega
    simp only [utf8, String.utf8EncodeChar, hle, if_true, List.map_cons, List.map_nil,
      UInt8.toNat_ofNat']
    rw [hval, Nat.mod_eq_of_lt (by omega)]
  · intro c _
    simp only [utf8, String.utf8EncodeChar]
    split_ifs <;> exact List.cons_ne_nil _ _
  · intro c hc u hu
    have hgt : ¬ c.val.toNat ≤ 0x7f := by
      rw [hval]
      omega
    simp only [utf8, String.utf8EncodeChar, hgt, if_false] at hu
    split_ifs at hu
    all_goals
      simp only [List.map_cons, List.map_nil, List.mem_cons, List.not_mem_nil, or_false,
        UInt8.toNat_ofNat'] at hu
      omega

/-- The units of a text. -/
def encode (enc : Char → List ℕ) (cs : List Char) : List ℕ := cs.flatMap enc

section
variable {enc : Char → List ℕ}

@[simp] theorem encode_nil : encode enc [] = [] := rfl

@[simp] theorem encode_cons (c : Char) (cs : List Char) :
    encode enc (c :: cs) = enc c ++ encode enc cs := List.flatMap_cons

@[simp] theorem encode_append (cs ds : List Char) :
    encode enc (cs ++ ds) = encode enc cs ++ encode enc ds := List.flatMap_append

theorem Transparent.ne_nil' (h : Transparent enc) (c : Char) : enc c ≠ [] := by
  by_cases hc : c.toNat < 128
  · rw [h.ascii c hc]
    exact List.cons_ne_nil _ _
  · exact h.ne_nil c (by omega)

theorem Transparent.encode_eq_nil (h : Transparent enc) (cs : List Char) :
    encode enc cs = [] ↔ cs = [] := by
  cases cs with
  | nil => simp
  | cons c cs => simp [h.ne_nil' c]

/-- ASCII texts have the same units in every encoding. -/
theorem Transparent.encode_ascii (h : Transparent enc) (cs : List Char)
    (hcs : ∀ c ∈ cs, c.toNat < 128) : encode enc cs = cs.map Char.toNat := by
  induction cs with
  | nil => rfl
  | cons c cs ih =>
    rw [List.forall_mem_cons] at hcs
    rw [encode_cons, h.ascii c hcs.1, ih hcs.2]
    rfl

/-- A test that only ASCII passes gives the same on the units. -/
theorem Transparent.all_encode (h : Transparent enc) (p : ℕ → Bool) (q : Char → Bool)
    (hpq : ∀ c : Char, c.toNat < 128 → p c.toNat = q c) (hp : ∀ u, 128 ≤ u → p u = false)
    (hq : ∀ c : Char, 128 ≤ c.toNat → q c = false) (cs : List Char) :
    (encode enc cs).all p = cs.all q := by
  induction cs with
  | nil => rfl
  | cons c cs ih =>
    rw [encode_cons, List.all_append, List.all_cons, ih]
    by_cases hc : c.toNat < 128
    · rw [h.ascii c hc, List.all_cons, List.all_nil, Bool.and_true, hpq c hc]
    · have hge : 128 ≤ c.toNat := by omega
      have hfalse : (enc c).all p = false := by
        obtain ⟨u, us, hu⟩ := List.exists_cons_of_ne_nil (h.ne_nil c hge)
        have hmem := h.other c hge u (hu ▸ List.mem_cons_self)
        rw [hu, List.all_cons, hp u hmem, Bool.false_and]
      rw [hfalse, hq c hge, Bool.false_and]

/-- A text begins with an ASCII text as its units begin with that text's. -/
theorem Transparent.isPrefixOf_encode (h : Transparent enc) (pre cs : List Char)
    (hpre : ∀ c ∈ pre, c.toNat < 128) :
    (pre.map Char.toNat).isPrefixOf (encode enc cs) = pre.isPrefixOf cs := by
  induction pre generalizing cs with
  | nil => simp
  | cons c pre ih =>
    rw [List.forall_mem_cons] at hpre
    cases cs with
    | nil => rfl
    | cons d cs =>
      by_cases hd : d.toNat < 128
      · have hbeq : (c.toNat == d.toNat) = (c == d) := by
          rw [Bool.eq_iff_iff, beq_iff_eq, beq_iff_eq, Char.toNat_inj]
        rw [encode_cons, h.ascii d hd, List.map_cons, List.singleton_append, List.isPrefixOf_cons_cons,
          List.isPrefixOf_cons_cons, ih cs hpre.2, hbeq]
      · have hge : 128 ≤ d.toNat := by omega
        obtain ⟨u, us, hu⟩ := List.exists_cons_of_ne_nil (h.ne_nil d hge)
        have hlarge := h.other d hge u (hu ▸ List.mem_cons_self)
        have hne : (c.toNat == u) = false := by
          rw [beq_eq_false_iff_ne]
          omega
        have hne' : (c == d) = false := by
          rw [beq_eq_false_iff_ne]
          rintro rfl
          omega
        rw [encode_cons, hu, List.map_cons, List.cons_append, List.isPrefixOf_cons_cons,
          List.isPrefixOf_cons_cons, hne, hne', Bool.false_and, Bool.false_and]

/-- The units before and after the first unit `u`. -/
def cut (u : ℕ) (v : List ℕ) : List ℕ × Option (List ℕ) :=
  match v.findIdx? (· == u) with
  | none => (v, none)
  | some i => (v.take i, some (v.drop (i + 1)))

theorem cut_cons_self (u : ℕ) (v : List ℕ) : cut u (u :: v) = ([], some v) := by
  simp [cut, List.findIdx?_cons]

theorem cut_cons_ne {u x : ℕ} (h : x ≠ u) (v : List ℕ) :
    cut u (x :: v) = (x :: (cut u v).1, (cut u v).2) := by
  have hb : (x == u) = false := beq_eq_false_iff_ne.mpr h
  simp only [cut, List.findIdx?_cons, hb]
  cases v.findIdx? (· == u) <;> simp

theorem cut_append_ne {u : ℕ} (pre v : List ℕ) (h : ∀ x ∈ pre, x ≠ u) :
    cut u (pre ++ v) = (pre ++ (cut u v).1, (cut u v).2) := by
  induction pre with
  | nil => rfl
  | cons x pre ih =>
    rw [List.forall_mem_cons] at h
    rw [List.cons_append, cut_cons_ne h.1, ih h.2]
    rfl

/-- The cut loses nothing. -/
theorem cut_join (u : ℕ) (v : List ℕ) :
    v = (cut u v).1 ++ (match (cut u v).2 with
      | none => []
      | some rest => u :: rest) := by
  induction v with
  | nil => rfl
  | cons x v ih =>
    by_cases hx : x = u
    · rw [hx, cut_cons_self]
      rfl
    · rw [cut_cons_ne hx, List.cons_append]
      exact congrArg (x :: ·) ih

theorem splitOn_append_ne {u : ℕ} (pre v : List ℕ) (h : ∀ x ∈ pre, x ≠ u) :
    (pre ++ v).splitOn u = (v.splitOn u).modifyHead (pre ++ ·) := by
  induction pre with
  | nil =>
    rw [List.nil_append]
    cases v.splitOn u <;> rfl
  | cons x pre ih =>
    rw [List.forall_mem_cons] at h
    rw [List.cons_append, List.splitOn_cons_eq_if_modifyHead, if_neg (by simpa using h.1), ih h.2,
      List.modifyHead_modifyHead]
    rfl

theorem Transparent.units_ne (h : Transparent enc) {c d : Char} (hd : d.toNat < 128) (hc : c ≠ d) :
    ∀ x ∈ enc c, x ≠ d.toNat := by
  intro x hx
  by_cases hlt : c.toNat < 128
  · rw [h.ascii c hlt] at hx
    rw [List.mem_singleton.mp hx]
    exact fun he => hc (Char.toNat_inj.mp he)
  · have := h.other c (by omega) x hx
    omega

/-- Cutting the units at an ASCII character is cutting the text there. -/
theorem Transparent.cut_encode (h : Transparent enc) (d : Char) (hd : d.toNat < 128)
    (pre post : List Char) (hpre : d ∉ pre) :
    cut d.toNat (encode enc pre) = (encode enc pre, none) ∧
      cut d.toNat (encode enc (pre ++ d :: post)) = (encode enc pre, some (encode enc post)) := by
  have hunits : ∀ x ∈ encode enc pre, x ≠ d.toNat := by
    intro x hx
    obtain ⟨c, hc, hxc⟩ := List.mem_flatMap.mp hx
    exact h.units_ne hd (fun he => hpre (he ▸ hc)) x hxc
  constructor
  · have hcut := cut_append_ne (encode enc pre) [] hunits
    rw [List.append_nil] at hcut
    rw [hcut]
    simp [cut]
  · rw [encode_append, encode_cons, h.ascii d hd, List.singleton_append, cut_append_ne _ _ hunits,
      cut_cons_self]
    simp

/-- What is split up stays in the parts, but for the separator. -/
theorem mem_splitOn {α : Type} [DecidableEq α] (sep : α) {x : α} {xs : List α} (h : x ∈ xs) :
    x = sep ∨ ∃ part ∈ xs.splitOn sep, x ∈ part := by
  induction xs with
  | nil => cases h
  | cons y xs ih =>
    by_cases hy : y = sep
    · rcases List.mem_cons.mp h with rfl | hx
      · exact Or.inl hy
      · rw [List.splitOn_cons_eq_if_modifyHead, if_pos (by simpa using hy)]
        refine (ih hx).imp_right ?_
        intro hpart
        obtain ⟨part, hmem, hxp⟩ := hpart
        exact ⟨part, List.mem_cons_of_mem _ hmem, hxp⟩
    · rw [List.splitOn_cons_eq_if_modifyHead, if_neg (by simpa using hy)]
      cases hsplit : xs.splitOn sep with
      | nil => exact absurd hsplit (List.splitOn_ne_nil sep xs)
      | cons part parts =>
        rw [hsplit] at ih
        rw [List.modifyHead_cons]
        rcases List.mem_cons.mp h with rfl | hx
        · exact Or.inr ⟨_, List.mem_cons_self, List.mem_cons_self⟩
        · refine (ih hx).imp_right ?_
          intro hpart
          obtain ⟨p, hmem, hxp⟩ := hpart
          rcases List.mem_cons.mp hmem with rfl | hmem
          · exact ⟨_, List.mem_cons_self, List.mem_cons_of_mem _ hxp⟩
          · exact ⟨p, List.mem_cons_of_mem _ hmem, hxp⟩

/-- Splitting the units at an ASCII character is splitting the text there. -/
theorem Transparent.splitOn_encode (h : Transparent enc) (d : Char) (hd : d.toNat < 128)
    (cs : List Char) :
    (encode enc cs).splitOn d.toNat = (cs.splitOn d).map (encode enc) := by
  induction cs with
  | nil => rfl
  | cons c cs ih =>
    rw [encode_cons, List.splitOn_cons_eq_if_modifyHead]
    by_cases hc : c = d
    · subst hc
      rw [h.ascii c hd, List.singleton_append, List.splitOn_cons_eq_if_modifyHead, ih]
      simp
    · rw [splitOn_append_ne _ _ (h.units_ne hd hc), ih, if_neg (by simpa using hc)]
      cases cs.splitOn d with
      | nil => rfl
      | cons s rest => simp

/-- Different texts have different units where one of them is ASCII. -/
theorem Transparent.encode_eq_map_iff (h : Transparent enc) (cs ds : List Char)
    (hds : ∀ c ∈ ds, c.toNat < 128) : encode enc cs = ds.map Char.toNat ↔ cs = ds := by
  induction cs generalizing ds with
  | nil =>
    cases ds <;> simp
  | cons c cs ih =>
    cases ds with
    | nil => simp [h.ne_nil' c]
    | cons d ds =>
      rw [List.forall_mem_cons] at hds
      rw [encode_cons, List.map_cons]
      by_cases hc : c.toNat < 128
      · rw [h.ascii c hc, List.singleton_append, List.cons.injEq, List.cons.injEq, ih ds hds.2,
          Char.toNat_inj]
      · have hge : 128 ≤ c.toNat := by omega
        obtain ⟨u, us, hu⟩ := List.exists_cons_of_ne_nil (h.ne_nil c hge)
        have hlarge := h.other c hge u (hu ▸ List.mem_cons_self)
        rw [hu, List.cons_append]
        constructor
        · intro he
          have hud := (List.cons.inj he).1
          omega
        · intro he
          have hcd := congrArg Char.toNat (List.cons.inj he).1
          omega

end

end Units
