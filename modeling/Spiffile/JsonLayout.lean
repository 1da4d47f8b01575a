import Spiffile.JsonText

/-!
# Printing

A printed value reads back as it was, whichever quoting and spacing its writer
uses, as long as the quoting reads back and the spacing is white. The bundles are
indented, the segments of a token are compact.
-/

namespace Spiffile

namespace JsonText

open Reader

/-! ### Writing -/

def quote (escape : Char → List Char) (s : String) : List Char :=
  quoteMark :: (s.toList.flatMap escape ++ [quoteMark])

def intText (n : ℤ) : List Char :=
  if n < 0 then '-' :: Nat.toDigits 10 n.natAbs else Nat.toDigits 10 n.natAbs

/-- What a writer chooses: its quoting, how it prints a fraction, what it puts
between the lines of a nesting and behind a colon. -/
structure Printer where
  escape : Char → List Char
  fraction : ℚ → List Char
  newline : ℕ → List Char
  colon : List Char

/-- Two spaces for each step of nesting. -/
def indented (escape : Char → List Char) (fraction : ℚ → List Char) : Printer where
  escape := escape
  fraction := fraction
  newline k := '\n' :: List.replicate (2 * k) ' '
  colon := [' ']

/-- Nothing between the parts. -/
def compact (escape : Char → List Char) (fraction : ℚ → List Char) : Printer where
  escape := escape
  fraction := fraction
  newline _ := []
  colon := []

section

variable (printer : Printer)

def lines (k : ℕ) : List (List Char) → List Char
  | [] => []
  | [item] => item
  | item :: items => item ++ ',' :: (printer.newline k ++ lines k items)

/-- The items one to a line, a step further in than the marks around them. -/
def layout (opening closing : Char) (k : ℕ) : List (List Char) → List Char
  | [] => [opening, closing]
  | item :: items =>
    opening :: (printer.newline (k + 1) ++ (lines printer (k + 1) (item :: items) ++
      (printer.newline k ++ [closing])))

mutual
def render (k : ℕ) : Json → List Char
  | .null => "null".toList
  | .bool b => if b then "true".toList else "false".toList
  | .int n => intText n
  | .dec q => printer.fraction q
  | .str s => quote printer.escape s
  | .arr xs => layout printer '[' ']' k (renderItems (k + 1) xs)
  | .obj ms => layout printer '\x7b' '\x7d' k (renderMembers (k + 1) ms)

def renderItems (k : ℕ) : List Json → List (List Char)
  | [] => []
  | x :: xs => render k x :: renderItems k xs

def renderMembers (k : ℕ) : List (String × Json) → List (List Char)
  | [] => []
  | (name, v) :: ms =>
    (quote printer.escape name ++ ':' :: (printer.colon ++ render k v)) :: renderMembers k ms
end

end

/- No number in it has a fraction. -/
mutual
def Whole : Json → Prop
  | .dec _ => False
  | .arr xs => WholeItems xs
  | .obj ms => WholeMembers ms
  | _ => True

def WholeItems : List Json → Prop
  | [] => True
  | x :: xs => Whole x ∧ WholeItems xs

def WholeMembers : List (String × Json) → Prop
  | [] => True
  | (_, v) :: ms => Whole v ∧ WholeMembers ms
end

theorem wholeItems_of_forall {xs : List Json} (h : ∀ x ∈ xs, Whole x) : WholeItems xs := by
  induction xs with
  | nil => trivial
  | cons x xs ih =>
    exact ⟨h x List.mem_cons_self, ih fun y hy => h y (List.mem_cons_of_mem _ hy)⟩

theorem wholeMembers_of_forall {ms : Members} (h : ∀ m ∈ ms, Whole m.2) : WholeMembers ms := by
  induction ms with
  | nil => trivial
  | cons m ms ih =>
    exact ⟨h m List.mem_cons_self, ih fun m' hm => h m' (List.mem_cons_of_mem _ hm)⟩

/-! ### Spaces -/

theorem spaces_append {word rest : List Char} (hword : ∀ c ∈ word, isSpace c = true)
    (hrest : ∀ c ∈ rest.head?, isSpace c = false) : spaces (word ++ rest) = some (word, rest) :=
  span_append hword hrest

/-- Spaces before a value are skipped. -/
theorem bind_spaces {α : Type} {f : List Char → Reader Char α} {word rest : List Char}
    (hword : ∀ c ∈ word, isSpace c = true) (hrest : ∀ c ∈ rest.head?, isSpace c = false) :
    (spaces.bind f) (word ++ rest) = f word rest := bind_of (spaces_append hword hrest)

theorem bind_no_spaces {α : Type} {f : List Char → Reader Char α} {rest : List Char}
    (hrest : ∀ c ∈ rest.head?, isSpace c = false) : (spaces.bind f) rest = f [] rest :=
  @bind_spaces α f [] rest (by simp) hrest

/-! ### Strings -/

/-- Each quoted character reads back. -/
def Quotes (escape : Char → List Char) : Prop :=
  ∀ c rest, char (escape c ++ rest) = some (some c, rest)

structure Printer.Lawful (printer : Printer) : Prop where
  quotes : Quotes printer.escape
  newline : ∀ k, ∀ c ∈ printer.newline k, isSpace c = true
  colon : ∀ c ∈ printer.colon, isSpace c = true

theorem indented_lawful {escape : Char → List Char} (h : Quotes escape) (fraction : ℚ → List Char) :
    (indented escape fraction).Lawful where
  quotes := h
  newline k c hc := by
    rcases List.mem_cons.mp hc with rfl | hc
    · rfl
    · rw [List.eq_of_mem_replicate hc]
      rfl
  colon c hc := by
    rw [List.mem_singleton.mp hc]
    rfl

theorem compact_lawful {escape : Char → List Char} (h : Quotes escape) (fraction : ℚ → List Char) :
    (compact escape fraction).Lawful where
  quotes := h
  newline _ _ hc := by cases hc
  colon _ hc := by cases hc

theorem chars_quote {escape : Char → List Char} (h : Quotes escape) (cs : List Char) {n : ℕ}
    (hn : (cs.flatMap escape).length < n) (rest : List Char) :
    chars n (cs.flatMap escape ++ quoteMark :: rest) = some (cs, rest) := by
  induction cs generalizing n with
  | nil =>
    cases n with
    | zero => exact absurd hn (Nat.not_lt_zero _)
    | succ n => rfl
  | cons c cs ih =>
    have hne : escape c ≠ [] := by
      intro he
      have hnil := h c []
      rw [he] at hnil
      cases hnil
    have hpos : 0 < (escape c).length := List.length_pos_iff.mpr hne
    rw [List.flatMap_cons, List.length_append] at hn
    cases n with
    | zero => omega
    | succ n =>
      rw [List.flatMap_cons, List.append_assoc, chars, bind_of (h c _)]
      change ((chars n).map (c :: ·)) _ = _
      rw [Reader.map, bind_of (ih (by omega))]
      rfl

theorem string_quote {escape : Char → List Char} (h : Quotes escape) (s : String) {n : ℕ}
    (hn : (quote escape s).length ≤ n + 1) (rest : List Char) :
    string n (quote escape s ++ rest) = some (s, rest) := by
  have hbody : chars n (s.toList.flatMap escape ++ quoteMark :: rest) = some (s.toList, rest) := by
    refine chars_quote h _ ?_ rest
    simp only [quote, List.length_cons, List.length_append] at hn
    omega
  have hquote : quote escape s ++ rest = quoteMark :: (s.toList.flatMap escape ++ quoteMark :: rest) := by
    simp [quote]
  rw [string, hquote]
  change ((chars n).map String.ofList) _ = _
  rw [Reader.map, bind_of hbody, String.ofList_toList]
  rfl

/-! ### Integers -/

theorem toDigits_head (n : ℕ) (h : (Nat.toDigits 10 n).head? = some '0') : n = 0 := by
  induction n using Nat.strong_induction_on with
  | _ n ih =>
    by_cases hn : n < 10
    · rw [Nat.toDigits_of_lt_base hn] at h
      have hdigit : ∀ m < 10, m.digitChar = '0' → m = 0 := by decide
      exact hdigit n hn (Option.some_inj.mp h)
    · rw [Nat.toDigits_of_base_le (by decide) (by omega), List.head?_append_of_ne_nil _
        Nat.toDigits_ne_nil] at h
      have := ih (n / 10) (by omega) h
      omega

/-- What can stand behind a number. -/
def Ends (rest : List Char) : Prop :=
  ∀ c ∈ rest.head?, c.isDigit = false ∧ c ≠ '.' ∧ c ≠ 'e' ∧ c ≠ 'E'

theorem digits_toDigits (n : ℕ) {rest : List Char} (hrest : Ends rest) :
    digits (Nat.toDigits 10 n ++ rest) = some (Nat.toDigits 10 n, rest) := by
  have hspan : span Char.isDigit (Nat.toDigits 10 n ++ rest) = some (Nat.toDigits 10 n, rest) :=
    span_append (fun c hc => Nat.isDigit_of_mem_toDigits (by decide) (by decide) hc)
      fun c hc => (hrest c hc).1
  rw [digits, bind_of hspan, if_neg Nat.toDigits_ne_nil]
  rfl

theorem optional_of_not {q : Char → Bool} {α : Type} {p : Reader Char α} {a : α} {rest : List Char}
    (h : ∀ c ∈ rest.head?, q c = false) : Reader.optional q p a rest = some (a, rest) := by
  cases rest with
  | nil => rfl
  | cons c rest =>
    have hc : q c = false := h c rfl
    simp only [Reader.optional, hc, Bool.false_eq_true, if_false]

/-- The digits of a number without a leading zero, and nothing more. -/
theorem number_digits (neg : Bool) (n : ℕ) {rest : List Char} (hrest : Ends rest) :
    (digits.bind fun int =>
      if int.head? = some '0' ∧ int ≠ ['0'] then fail
      else
        (Reader.optional (fun c => c = '.') ((token '.').bind fun _ => digits) []).bind fun frac =>
          (Reader.optional (fun c => c = 'e' || c = 'E') (exponent.map some) none).map fun exp =>
            literal neg int frac exp) (Nat.toDigits 10 n ++ rest) =
      some (.int ((if neg then -1 else 1) * n), rest) := by
  have hzero : ¬ ((Nat.toDigits 10 n).head? = some '0' ∧ Nat.toDigits 10 n ≠ ['0']) := by
    rintro ⟨hhead, hne⟩
    rw [toDigits_head n hhead] at hne
    exact hne (Nat.toDigits_zero 10)
  have hfrac : Reader.optional (fun c => c = '.') ((token '.').bind fun _ => digits) [] rest =
      some ([], rest) := optional_of_not fun c hc => by simp [(hrest c hc).2.1]
  have hexp : Reader.optional (fun c => c = 'e' || c = 'E') (exponent.map some) none rest =
      some (none, rest) := optional_of_not fun c hc => by simp [(hrest c hc).2.2]
  rw [bind_of (digits_toDigits n hrest), if_neg hzero, bind_of hfrac, Reader.map, bind_of hexp]
  simp [done, literal]

theorem number_int (n : ℤ) {rest : List Char} (hrest : Ends rest) :
    number (intText n ++ rest) = some (.int n, rest) := by
  unfold intText
  split_ifs with hneg
  · have hsign : Reader.optional (fun c => c = '-') ((token '-').map fun _ => true) false
        ('-' :: (Nat.toDigits 10 n.natAbs ++ rest)) =
          some (true, Nat.toDigits 10 n.natAbs ++ rest) := rfl
    rw [List.cons_append, number, bind_of hsign, number_digits true n.natAbs hrest]
    congr 3
    simp only [if_true]
    omega
  · have hsign : Reader.optional (fun c => c = '-') ((token '-').map fun _ => true) false
        (Nat.toDigits 10 n.natAbs ++ rest) = some (false, Nat.toDigits 10 n.natAbs ++ rest) := by
      refine optional_of_not fun c hc => ?_
      rw [List.head?_append_of_ne_nil _ Nat.toDigits_ne_nil] at hc
      have hdigit := Nat.isDigit_of_mem_toDigits (by decide) (by decide) (List.mem_of_mem_head? hc)
      have hne : c ≠ '-' := by
        rintro rfl
        cases hdigit
      simp [hne]
    rw [number, bind_of hsign, number_digits false n.natAbs hrest]
    congr 3
    simp only [Bool.false_eq_true, if_false]
    omega

theorem intText_cons (n : ℤ) : ∃ c cs, intText n = c :: cs ∧ (c = '-' ∨ c.isDigit = true) := by
  unfold intText
  split_ifs
  · exact ⟨'-', _, rfl, Or.inl rfl⟩
  · obtain ⟨c, cs, hcs⟩ := List.exists_cons_of_ne_nil (Nat.toDigits_ne_nil (n := n.natAbs) (b := 10))
    have hmem : c ∈ Nat.toDigits 10 n.natAbs := hcs ▸ List.mem_cons_self
    exact ⟨c, cs, hcs, Or.inr (Nat.isDigit_of_mem_toDigits (by decide) (by decide) hmem)⟩

/-- A number begins with no other mark. -/
theorem mark_of_number {c : Char} (hc : c = '-' ∨ c.isDigit = true) :
    isSpace c = false ∧ c ≠ quoteMark ∧ c ≠ '[' ∧ c ≠ '\x7b' ∧ c ≠ ']' := by
  rcases hc with rfl | hdigit
  · decide
  · have hne : ∀ d : Char, d.isDigit = false → c ≠ d := by
      rintro d hd rfl
      rw [hdigit] at hd
      cases hd
    refine ⟨?_, hne _ rfl, hne _ rfl, hne _ rfl, hne _ rfl⟩
    simp [isSpace, hne ' ' rfl, hne '\t' rfl, hne '\n' rfl, hne '\r' rfl]

/-! ### The kinds of values -/

section

variable {name : Reader Char String} {items : Reader Char (List Json)} {ms : Reader Char Members}
  {gap text rest : List Char} (hgap : ∀ c ∈ gap, isSpace c = true)

include hgap

theorem valueWith_quote {s : String} (h : name (quoteMark :: text) = some (s, rest)) :
    valueWith name items ms (gap ++ quoteMark :: text) = some (.str s, rest) := by
  rw [valueWith, bind_spaces hgap (by simp [isSpace, quoteMark]), look_cons, if_pos (by simp),
    Reader.map, bind_of h]
  rfl

theorem valueWith_bracket {xs : List Json} (h : enclosed '[' ']' items ('[' :: text) = some (xs, rest)) :
    valueWith name items ms (gap ++ '[' :: text) = some (.arr xs, rest) := by
  rw [valueWith, bind_spaces hgap (by simp [isSpace]), look_cons, if_neg (by decide), look_cons,
    if_pos (by simp), Reader.map, bind_of h]
  rfl

theorem valueWith_brace {xs : Members}
    (h : enclosed '\x7b' '\x7d' ms ('\x7b' :: text) = some (xs, rest)) :
    valueWith name items ms (gap ++ '\x7b' :: text) = some (.obj xs, rest) := by
  rw [valueWith, bind_spaces hgap (by simp [isSpace]), look_cons, if_neg (by decide), look_cons,
    if_neg (by decide), look_cons, if_pos (by simp), Reader.map, bind_of h]
  rfl

theorem valueWith_number {c : Char} {v : Json} (hc : c = '-' ∨ c.isDigit = true)
    (h : number (c :: text) = some (v, rest)) :
    valueWith name items ms (gap ++ c :: text) = some (v, rest) := by
  obtain ⟨hspace, hquote, hbracket, hbrace, -⟩ := mark_of_number hc
  rw [valueWith, bind_spaces hgap (by simp [hspace]), look_cons, if_neg (by simp [hquote]),
    look_cons, if_neg (by simp [hbracket]), look_cons, if_neg (by simp [hbrace]), look_cons,
    if_pos (by simpa using hc), h]

theorem valueWith_constant {c : Char} {v : Json} (hc : c = 'n' ∨ c = 't' ∨ c = 'f')
    (h : constant (c :: text) = some (v, rest)) :
    valueWith name items ms (gap ++ c :: text) = some (v, rest) := by
  obtain ⟨hspace, hquote, hbracket, hbrace, hnumber⟩ : isSpace c = false ∧ c ≠ quoteMark ∧ c ≠ '[' ∧
      c ≠ '\x7b' ∧ ¬ (c = '-' ∨ c.isDigit = true) := by
    rcases hc with rfl | rfl | rfl
    all_goals decide
  rw [valueWith, bind_spaces hgap (by simp [hspace]), look_cons, if_neg (by simp [hquote]),
    look_cons, if_neg (by simp [hbracket]), look_cons, if_neg (by simp [hbrace]), look_cons,
    if_neg (by simpa using hnumber), h]

end

section

variable {α : Type} {opening closing : Char} {items : Reader Char (List α)}

theorem enclosed_empty (hclosing : isSpace closing = false) (rest : List Char) :
    enclosed opening closing items (opening :: closing :: rest) = some ([], rest) := by
  rw [enclosed, bind_of (token_cons _ _), bind_no_spaces (by simp [hclosing]), look_cons,
    if_pos (by simp), Reader.map, bind_of (token_cons _ _)]
  rfl

theorem enclosed_items {gap : List Char} (hgap : ∀ c ∈ gap, isSpace c = true) {c : Char}
    {text : List Char} (hc : isSpace c = false) (hne : c ≠ closing) :
    enclosed opening closing items (opening :: (gap ++ c :: text)) = items (c :: text) := by
  rw [enclosed, bind_of (token_cons _ _), bind_spaces hgap (by simp [hc]), look_cons,
    if_neg (by simp [hne])]

variable {item : Reader Char α} {more : Reader Char (List α)} {text mid rest : List Char} {x : α}

theorem separated_more {xs : List α} (hitem : item text = some (x, ',' :: mid))
    (hmore : more mid = some (xs, rest)) : separated closing item more text = some (x :: xs, rest) := by
  rw [separated, bind_of hitem, bind_no_spaces (by simp [isSpace]), bind_of (next_cons _ _), if_pos rfl,
    Reader.map, bind_of hmore]
  rfl

theorem separated_last {gap : List Char} (hgap : ∀ c ∈ gap, isSpace c = true)
    (hclosing : isSpace closing = false) (hne : closing ≠ ',')
    (hitem : item text = some (x, gap ++ closing :: rest)) :
    separated closing item more text = some ([x], rest) := by
  rw [separated, bind_of hitem, bind_spaces hgap (by simp [hclosing]), bind_of (next_cons _ _),
    if_neg hne, if_pos rfl]
  rfl

end

/-! ### A written value reads back -/

theorem ends_cons {c : Char} {rest : List Char} (h : c.isDigit = false ∧ c ≠ '.' ∧ c ≠ 'e' ∧ c ≠ 'E') :
    Ends (c :: rest) := by
  intro c' hc'
  rw [← Option.some_inj.mp hc']
  exact h

theorem ends_append {gap rest : List Char} (hgap : ∀ c ∈ gap, isSpace c = true) (hrest : Ends rest) :
    Ends (gap ++ rest) := by
  cases gap with
  | nil => exact hrest
  | cons c gap =>
    refine ends_cons ?_
    have hc := hgap c List.mem_cons_self
    simp only [isSpace, Bool.or_eq_true, decide_eq_true_eq] at hc
    rcases hc with ((rfl | rfl) | rfl) | rfl
    all_goals decide

/-- The text of a value begins with one of its marks. -/
theorem render_cons (printer : Printer) (k : ℕ) {v : Json} (hv : Whole v) :
    ∃ c cs, render printer k v = c :: cs ∧ isSpace c = false ∧ c ≠ ']' := by
  cases v with
  | null => exact ⟨_, _, rfl, by decide, by decide⟩
  | bool b => cases b <;> exact ⟨_, _, rfl, by decide, by decide⟩
  | int n =>
    obtain ⟨c, cs, hcs, hc⟩ := intText_cons n
    obtain ⟨hspace, -, -, -, hclosing⟩ := mark_of_number hc
    exact ⟨c, cs, by rw [render, hcs], hspace, hclosing⟩
  | dec q => exact hv.elim
  | str s => exact ⟨quoteMark, _, rfl, by decide, by decide⟩
  | arr xs =>
    rw [render]
    cases renderItems printer (k + 1) xs with
    | nil => exact ⟨_, _, rfl, by decide, by decide⟩
    | cons => exact ⟨_, _, rfl, by decide, by decide⟩
  | obj ms =>
    rw [render]
    cases renderMembers printer (k + 1) ms with
    | nil => exact ⟨_, _, rfl, by decide, by decide⟩
    | cons => exact ⟨_, _, rfl, by decide, by decide⟩

section

variable (printer : Printer)

theorem layout_append (opening closing : Char) (k : ℕ) (item : List Char) (items : List (List Char))
    (rest : List Char) :
    layout printer opening closing k (item :: items) ++ rest =
      opening :: (printer.newline (k + 1) ++ (lines printer (k + 1) (item :: items) ++
        (printer.newline k ++ closing :: rest))) := by
  simp only [layout, List.cons_append, List.append_assoc, List.nil_append]

/-- Between the marks the lines are read. -/
theorem enclosed_lines {α : Type} (opening : Char) {closing : Char} {items : Reader Char (List α)}
    (hprinter : printer.Lawful) (k : ℕ) {item : List Char}
    (hitem : ∃ c cs, item = c :: cs ∧ isSpace c = false ∧ c ≠ closing)
    (more : List (List Char)) (rest : List Char) :
    enclosed opening closing items
        (opening :: (printer.newline k ++ (lines printer k (item :: more) ++ rest))) =
      items (lines printer k (item :: more) ++ rest) := by
  obtain ⟨c, cs, rfl, hspace, hclosing⟩ := hitem
  have hlines : ∃ cs', lines printer k ((c :: cs) :: more) = c :: cs' := by
    cases more with
    | nil => exact ⟨cs, rfl⟩
    | cons item more => exact ⟨_, rfl⟩
  obtain ⟨cs', hcs'⟩ := hlines
  rw [hcs']
  exact enclosed_items (hprinter.newline k) hspace hclosing

theorem length_le_lines (k : ℕ) (item : List Char) (items : List (List Char)) :
    item.length ≤ (lines printer k (item :: items)).length := by
  cases items with
  | nil => exact le_refl _
  | cons item' items => simp [lines]

theorem length_lines_lt (k : ℕ) (item item' : List Char) (items : List (List Char)) :
    (lines printer k (item' :: items)).length < (lines printer k (item :: item' :: items)).length := by
  simp only [lines, List.length_append, List.length_cons]
  omega

theorem length_lines_lt_layout (opening closing : Char) (k : ℕ) (item : List Char)
    (items : List (List Char)) :
    (lines printer (k + 1) (item :: items)).length + 1 <
      (layout printer opening closing k (item :: items)).length := by
  simp only [layout, List.length_append, List.length_cons, List.length_nil]
  omega

/-- With so much nesting a value reads back, up to spaces before it. -/
def ReadsValue (n : ℕ) : Prop :=
  ∀ (v : Json) (k : ℕ) (gap rest : List Char), Whole v → (render printer k v).length ≤ n →
    (∀ c ∈ gap, isSpace c = true) → Ends rest →
      value n (gap ++ (render printer k v ++ rest)) = some (v, rest)

def ReadsElements (n : ℕ) : Prop :=
  ∀ (x : Json) (xs : List Json) (k j : ℕ) (gap rest : List Char), Whole x → WholeItems xs →
    (lines printer k (renderItems printer k (x :: xs))).length < n →
    (∀ c ∈ gap, isSpace c = true) →
      elements n (gap ++ (lines printer k (renderItems printer k (x :: xs)) ++
        (printer.newline j ++ ']' :: rest))) = some (x :: xs, rest)

def ReadsMembers (n : ℕ) : Prop :=
  ∀ (name : String) (v : Json) (ms : Members) (k j : ℕ) (gap rest : List Char), Whole v →
    WholeMembers ms → (lines printer k (renderMembers printer k ((name, v) :: ms))).length < n →
    (∀ c ∈ gap, isSpace c = true) →
      members n (gap ++ (lines printer k (renderMembers printer k ((name, v) :: ms)) ++
        (printer.newline j ++ '\x7d' :: rest))) = some ((name, v) :: ms, rest)

end

section

variable {printer : Printer} (hprinter : printer.Lawful)

include hprinter

theorem readsElements_succ {n : ℕ} (hvalue : ReadsValue printer n)
    (helements : ReadsElements printer n) : ReadsElements printer (n + 1) := by
  intro x xs k j gap rest hx hxs hn hgap
  have hlength := length_le_lines printer k (render printer k x) (renderItems printer k xs)
  have hitem : ∀ {rest : List Char}, Ends rest →
      value n (gap ++ (render printer k x ++ rest)) = some (x, rest) :=
    fun hrest => hvalue x k gap _ hx (by simp only [renderItems] at hn; omega) hgap hrest
  cases xs with
  | nil =>
    exact separated_last (hprinter.newline j) rfl (by decide)
      (hitem (ends_append (hprinter.newline j) (ends_cons (by decide))))
  | cons y ys =>
    have hshort := length_lines_lt printer k (render printer k x) (render printer k y)
      (renderItems printer k ys)
    have hmore := helements y ys k j (printer.newline k) rest hxs.1 hxs.2
      (by simp only [renderItems] at hn ⊢; omega) (hprinter.newline k)
    simp only [renderItems, lines, List.append_assoc, List.cons_append]
    exact separated_more (hitem (ends_cons (by decide))) hmore

theorem member_render {n : ℕ} (hvalue : ReadsValue printer n) {name : String} {v : Json}
    {k : ℕ} {gap rest : List Char} (hv : Whole v)
    (hn : (quote printer.escape name ++ ':' :: (printer.colon ++ render printer k v)).length ≤ n)
    (hgap : ∀ c ∈ gap, isSpace c = true) (hrest : Ends rest) :
    member (string n) (value n)
      (gap ++ (quote printer.escape name ++ ':' :: (printer.colon ++ render printer k v) ++ rest)) =
        some ((name, v), rest) := by
  simp only [List.length_append, List.length_cons] at hn
  have hname := string_quote hprinter.quotes name (n := n) (by omega)
    (':' :: (printer.colon ++ (render printer k v ++ rest)))
  have hread : value n (printer.colon ++ (render printer k v ++ rest)) = some (v, rest) :=
    hvalue v k printer.colon rest hv (by omega) hprinter.colon hrest
  rw [List.append_assoc, member, bind_spaces hgap (by simp [quote, isSpace, quoteMark])]
  rw [List.cons_append, List.append_assoc, bind_of hname, bind_no_spaces (by simp [isSpace]),
    bind_of (token_cons _ _), Reader.map, bind_of hread]
  rfl

theorem readsMembers_succ {n : ℕ} (hvalue : ReadsValue printer n)
    (hmembers : ReadsMembers printer n) : ReadsMembers printer (n + 1) := by
  intro name v ms k j gap rest hv hms hn hgap
  have hlength := length_le_lines printer k
    (quote printer.escape name ++ ':' :: (printer.colon ++ render printer k v))
    (renderMembers printer k ms)
  have hitem : ∀ {rest : List Char}, Ends rest → member (string n) (value n)
      (gap ++ (quote printer.escape name ++ ':' :: (printer.colon ++ render printer k v) ++ rest)) =
        some ((name, v), rest) :=
    fun hrest => member_render hprinter hvalue hv (by simp only [renderMembers] at hn; omega) hgap hrest
  cases ms with
  | nil =>
    exact separated_last (hprinter.newline j) rfl (by decide)
      (hitem (ends_append (hprinter.newline j) (ends_cons (by decide))))
  | cons m' ms =>
    obtain ⟨name', v'⟩ := m'
    have hshort := length_lines_lt printer k
      (quote printer.escape name ++ ':' :: (printer.colon ++ render printer k v))
      (quote printer.escape name' ++ ':' :: (printer.colon ++ render printer k v'))
      (renderMembers printer k ms)
    have hmore := hmembers name' v' ms k j (printer.newline k) rest hms.1 hms.2
      (by simp only [renderMembers] at hn ⊢; omega) (hprinter.newline k)
    simp only [renderMembers, lines, List.append_assoc, List.cons_append] at hitem ⊢
    exact separated_more (hitem (ends_cons (by decide))) hmore

theorem readsValue_succ {n : ℕ} (helements : ReadsElements printer n)
    (hmembers : ReadsMembers printer n) : ReadsValue printer (n + 1) := by
  intro v k gap rest hv hn hgap hrest
  cases v with
  | null => exact valueWith_constant hgap (Or.inl rfl) rfl
  | bool b =>
    cases b with
    | true => exact valueWith_constant hgap (Or.inr (Or.inl rfl)) rfl
    | false => exact valueWith_constant hgap (Or.inr (Or.inr rfl)) rfl
  | int i =>
    obtain ⟨c, cs, hcs, hc⟩ := intText_cons i
    have hnumber := number_int i hrest
    rw [hcs] at hnumber
    rw [render, hcs]
    exact valueWith_number hgap hc hnumber
  | dec q => exact hv.elim
  | str s => exact valueWith_quote hgap (string_quote hprinter.quotes s hn rest)
  | arr xs =>
    cases xs with
    | nil => exact valueWith_bracket hgap (enclosed_empty rfl rest)
    | cons x xs =>
      have hlines := length_lines_lt_layout printer '[' ']' k (render printer (k + 1) x)
        (renderItems printer (k + 1) xs)
      have hread := helements x xs (k + 1) k [] rest hv.1 hv.2
        (by simp only [render, renderItems] at hn hlines ⊢; omega) (by simp)
      rw [render, renderItems, layout_append]
      exact valueWith_bracket hgap
        ((enclosed_lines printer '[' hprinter (k + 1) (render_cons printer (k + 1) hv.1) _ _).trans hread)
  | obj ms =>
    cases ms with
    | nil => exact valueWith_brace hgap (enclosed_empty rfl rest)
    | cons m ms =>
      obtain ⟨name, v⟩ := m
      have hlines := length_lines_lt_layout printer '\x7b' '\x7d' k
        (quote printer.escape name ++ ':' :: (printer.colon ++ render printer (k + 1) v))
        (renderMembers printer (k + 1) ms)
      have hread := hmembers name v ms (k + 1) k [] rest hv.1 hv.2
        (by simp only [render, renderMembers] at hn hlines ⊢; omega) (by simp)
      have hitem : ∃ c cs,
          quote printer.escape name ++ ':' :: (printer.colon ++ render printer (k + 1) v) = c :: cs ∧
            isSpace c = false ∧ c ≠ '\x7d' := ⟨quoteMark, _, rfl, by decide, by decide⟩
      rw [render, renderMembers, layout_append]
      exact valueWith_brace hgap ((enclosed_lines printer '\x7b' hprinter (k + 1) hitem _ _).trans hread)

theorem reads_render (n : ℕ) : ReadsValue printer n ∧ ReadsElements printer n ∧
    ReadsMembers printer n := by
  induction n with
  | zero =>
    refine ⟨fun v k gap rest hv hn => ?_, fun _ _ _ _ _ _ _ _ hn => ?_, fun _ _ _ _ _ _ _ _ _ hn => ?_⟩
    · obtain ⟨c, cs, hcs, -⟩ := render_cons printer k hv
      rw [hcs] at hn
      exact absurd hn (Nat.not_succ_le_zero _)
    · exact absurd hn (Nat.not_lt_zero _)
    · exact absurd hn (Nat.not_lt_zero _)
  | succ n ih =>
    obtain ⟨hvalue, helements, hmembers⟩ := ih
    exact ⟨readsValue_succ hprinter helements hmembers, readsElements_succ hprinter hvalue helements,
      readsMembers_succ hprinter hvalue hmembers⟩

/-! ### Whole texts -/

theorem value_text {v : Json} (hv : Whole v) {tail : List Char} (htail : Ends tail) {n : ℕ}
    (hn : (render printer 0 v).length ≤ n) :
    value n (render printer 0 v ++ tail) = some (v, tail) :=
  (reads_render hprinter n).1 v 0 [] tail hv hn (by simp) htail

theorem parse_render {v : Json} (hv : Whole v) {tail : List Char} (htail : Ends tail)
    (hspace : tail.all isSpace = true) : parse (render printer 0 v ++ tail) = some v := by
  have hread : value ((render printer 0 v ++ tail).length + 1)
      (render printer 0 v ++ tail) = some (v, tail) :=
    value_text hprinter hv htail (by rw [List.length_append]; omega)
  rw [parse, hread]
  exact if_pos hspace

/-- What can be read of an object's text is all of it, up to the last newline. -/
theorem complete_of_parse {ms : Members} (hms : WholeMembers ms) {p : List Char} {v : Json}
    (hp : p <+: render printer 0 (.obj ms) ++ ['\n']) (hparse : parse p = some v) :
    (render printer 0 (.obj ms)).length ≤ p.length := by
  obtain ⟨more, hmore⟩ := hp
  cases p with
  | nil => cases hparse
  | cons c ts =>
    obtain ⟨cs, hcs⟩ : ∃ cs, render printer 0 (.obj ms) = '\x7b' :: cs := by
      rw [render]
      cases renderMembers printer 1 ms with
      | nil => exact ⟨_, rfl⟩
      | cons => exact ⟨_, rfl⟩
    have hc : c = '\x7b' := by
      rw [hcs] at hmore
      exact (List.cons.inj hmore).1
    subst hc
    have hread : value (('\x7b' :: ts ++ more).length + 1) ('\x7b' :: ts ++ more) =
        some (.obj ms, ['\n']) := by
      rw [hmore]
      exact value_text hprinter (v := .obj ms) hms (ends_cons (by decide)) (by simp; omega)
    have hsuffix := (parse_shorter hread hparse).2.length_le
    have hlength := congrArg List.length hmore
    rw [List.length_append, List.length_append] at hlength
    omega

/-- The text of an object, cut off anywhere: only the last newline can go. -/
theorem parse_cut {ms : Members} (hms : WholeMembers ms) {p : List Char}
    (hp : p <+: render printer 0 (.obj ms) ++ ['\n']) :
    parse p = if (render printer 0 (.obj ms)).length ≤ p.length then some (.obj ms) else none := by
  split_ifs with hlength
  · have hpre : render printer 0 (.obj ms) <+: p :=
      List.prefix_of_prefix_length_le (List.prefix_append _ _) hp hlength
    obtain ⟨tail, rfl⟩ := hpre
    rw [List.prefix_append_right_inj] at hp
    have htail : tail = [] ∨ tail = ['\n'] := by
      rcases List.prefix_cons_iff.mp hp with rfl | ⟨t, rfl, ht⟩
      · exact Or.inl rfl
      · rw [List.prefix_nil.mp ht]
        exact Or.inr rfl
    rcases htail with rfl | rfl
    · exact parse_render hprinter (v := .obj ms) hms (by simp [Ends]) rfl
    · exact parse_render hprinter (v := .obj ms) hms (ends_cons (by decide)) rfl
  · cases hparse : parse p with
    | none => rfl
    | some v => exact absurd (complete_of_parse hprinter hms hp hparse) hlength

end

end JsonText

end Spiffile
