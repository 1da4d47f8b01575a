import Mathlib.Algebra.Order.Field.Rat
import Spiffile.Lib.Parsing
import Spiffile.Keys

/-!
# JSON texts

What `json.loads`, `JSON.parse` and `encoding/json` read alike, the texts of
RFC 8259, and the indented layout that `json.dumps`, `JSON.stringify` and
`json.MarshalIndent` write alike, each with its own quoting. Lone surrogates and
Python's `NaN` and `Infinity` are left out. How a number with a fraction is
printed is a parameter.
-/

namespace Spiffile

namespace JsonText

open Reader

/-! ### Reading -/

def isSpace (c : Char) : Bool := c = ' ' || c = '\t' || c = '\n' || c = '\r'

def spaces : Reader Char (List Char) := span isSpace

def hexVal (c : Char) : Option ℕ :=
  if '0' ≤ c ∧ c ≤ '9' then some (c.toNat - 48)
  else if 'a' ≤ c ∧ c ≤ 'f' then some (c.toNat - 87)
  else if 'A' ≤ c ∧ c ≤ 'F' then some (c.toNat - 55)
  else none

def hexDigit : Reader Char ℕ :=
  next.bind fun c =>
    match hexVal c with
    | some d => done d
    | none => fail

def hexDigits : ℕ → Reader Char ℕ
  | 0 => done 0
  | k + 1 => (hexDigits k).bind fun v => hexDigit.map fun d => 16 * v + d

/-- The rest of `\u`: a code unit, or two that form a pair. -/
def unicode : Reader Char Char :=
  (hexDigits 4).bind fun hi =>
    if 0xd800 ≤ hi ∧ hi < 0xdc00 then
      (tokens [backslash, 'u']).bind fun _ => (hexDigits 4).bind fun lo =>
        if 0xdc00 ≤ lo ∧ lo < 0xe000 then
          done (Char.ofNat (0x10000 + (hi - 0xd800) * 1024 + (lo - 0xdc00)))
        else fail
    else if 0xdc00 ≤ hi ∧ hi < 0xe000 then fail
    else done (Char.ofNat hi)

/-- The rest of an escape. -/
def escaped : Reader Char Char :=
  next.bind fun c =>
    if c = quoteMark ∨ c = backslash ∨ c = '/' then done c
    else if c = 'b' then done (Char.ofNat 8)
    else if c = 'f' then done (Char.ofNat 12)
    else if c = 'n' then done (Char.ofNat 10)
    else if c = 'r' then done (Char.ofNat 13)
    else if c = 't' then done (Char.ofNat 9)
    else if c = 'u' then unicode
    else fail

/-- A character of a string, or its end. -/
def char : Reader Char (Option Char) :=
  next.bind fun c =>
    if c = quoteMark then done none
    else if c = backslash then escaped.map some
    else if c.toNat < 32 then fail
    else done (some c)

def chars : ℕ → Reader Char (List Char)
  | 0 => fail
  | n + 1 => char.bind fun c =>
    match c with
    | none => done []
    | some c => (chars n).map (c :: ·)

def string (n : ℕ) : Reader Char String :=
  (token quoteMark).bind fun _ => (chars n).map String.ofList

def digits : Reader Char (List Char) :=
  (span Char.isDigit).bind fun ds => if ds = [] then fail else done ds

def exponent : Reader Char ℤ :=
  next.bind fun _ =>
    (optional (fun c => c = '+' || c = '-') (next.map fun c => decide (c = '-')) false).bind fun neg =>
      digits.map fun ds =>
        if neg then - (Nat.ofDigitChars 10 ds 0 : ℤ) else (Nat.ofDigitChars 10 ds 0 : ℤ)

/-- The value of a literal; without a fraction and an exponent it is an integer. -/
def literal (neg : Bool) (int frac : List Char) (exp : Option ℤ) : Json :=
  let sign : ℤ := if neg then -1 else 1
  if frac = [] ∧ exp = none then .int (sign * Nat.ofDigitChars 10 int 0)
  else
    .dec (sign * (Nat.ofDigitChars 10 (int ++ frac) 0 : ℚ) * (10 : ℚ) ^ (exp.getD 0 - frac.length))

def number : Reader Char Json :=
  (optional (fun c => c = '-') ((token '-').map fun _ => true) false).bind fun neg =>
    digits.bind fun int =>
      if int.head? = some '0' ∧ int ≠ ['0'] then fail
      else
        (optional (fun c => c = '.') ((token '.').bind fun _ => digits) []).bind fun frac =>
          (optional (fun c => c = 'e' || c = 'E') (exponent.map some) none).map fun exp =>
            literal neg int frac exp

/-- Items up to the closing mark. -/
def separated {α : Type} (closing : Char) (item : Reader Char α) (more : Reader Char (List α)) :
    Reader Char (List α) :=
  item.bind fun x => spaces.bind fun _ => next.bind fun c =>
    if c = ',' then more.map (x :: ·)
    else if c = closing then done [x]
    else fail

def enclosed {α : Type} (opening closing : Char) (items : Reader Char (List α)) :
    Reader Char (List α) :=
  (token opening).bind fun _ => spaces.bind fun _ =>
    look (fun c => c = closing) ((token closing).map fun _ => []) items

def member (name : Reader Char String) (value : Reader Char Json) : Reader Char (String × Json) :=
  spaces.bind fun _ => name.bind fun k => spaces.bind fun _ => (token ':').bind fun _ =>
    value.map fun v => (k, v)

def word (text : String) (v : Json) : Reader Char Json := (tokens text.toList).map fun _ => v

def constant : Reader Char Json :=
  look (fun c => c = 'n') (word "null" .null)
    (look (fun c => c = 't') (word "true" (.bool true)) (word "false" (.bool false)))

/-- A value whose parts are read by the given readers. -/
def valueWith (name : Reader Char String) (items : Reader Char (List Json))
    (ms : Reader Char Members) : Reader Char Json :=
  spaces.bind fun _ =>
    look (fun c => c = quoteMark) (name.map .str)
      (look (fun c => c = '[') ((enclosed '[' ']' items).map .arr)
        (look (fun c => c = '\x7b') ((enclosed '\x7b' '\x7d' ms).map .obj)
          (look (fun c => c = '-' || c.isDigit) number constant)))

/- The nesting is bounded by the first argument; a text has less of it than
characters. -/
mutual
def value : ℕ → Reader Char Json
  | 0 => fail
  | n + 1 => valueWith (string n) (elements n) (members n)

def elements : ℕ → Reader Char (List Json)
  | 0 => fail
  | n + 1 => separated ']' (value n) (elements n)

def members : ℕ → Reader Char Members
  | 0 => fail
  | n + 1 => separated '\x7d' (member (string n) (value n)) (members n)
end

def parse (text : List Char) : Option Json :=
  match value (text.length + 1) text with
  | some (v, rest) => if rest.all isSpace then some v else none
  | none => none

/-! ### What follows a text -/

theorem local_spaces : spaces.Local := local_span _

theorem delimited_hexDigit : hexDigit.Delimited := by
  refine delimited_next.bind fun c => ?_
  split
  · exact delimited_done _
  · exact delimited_fail

theorem delimited_hexDigits (k : ℕ) : (hexDigits k).Delimited := by
  induction k with
  | zero => exact delimited_done _
  | succ k ih => exact ih.bind fun _ => delimited_hexDigit.map _

theorem delimited_unicode : unicode.Delimited := by
  refine (delimited_hexDigits 4).bind fun hi => Delimited.ite ?_ (Delimited.ite ?_ ?_)
  · refine (delimited_tokens _).bind fun _ => (delimited_hexDigits 4).bind fun lo => ?_
    exact Delimited.ite (delimited_done _) delimited_fail
  · exact delimited_fail
  · exact delimited_done _

theorem delimited_escaped : escaped.Delimited := by
  refine delimited_next.bind fun c => ?_
  iterate 6 refine Delimited.ite (delimited_done _) ?_
  exact Delimited.ite delimited_unicode delimited_fail

theorem delimited_char : char.Delimited := by
  refine delimited_next.bind fun c => Delimited.ite (delimited_done _) (Delimited.ite ?_ ?_)
  · exact delimited_escaped.map _
  · exact Delimited.ite delimited_fail (delimited_done _)

theorem delimited_chars (n : ℕ) : (chars n).Delimited := by
  induction n with
  | zero => exact delimited_fail
  | succ n ih =>
    refine delimited_char.bind fun c => ?_
    cases c with
    | none => exact delimited_done _
    | some c => exact ih.map _

theorem delimited_string (n : ℕ) : (string n).Delimited :=
  (delimited_token _).bind fun _ => (delimited_chars n).map _

theorem local_digits : digits.Local :=
  (local_span _).bind fun _ => (Delimited.ite delimited_fail (delimited_done _)).local

theorem local_exponent : exponent.Local :=
  delimited_next.local.bind fun _ =>
    (Local.optional (delimited_next.map _).local _).bind fun _ =>
      local_digits.bind fun _ => (delimited_done _).local

/-- A number goes on as far as it can. -/
theorem local_number : number.Local := by
  refine (Local.optional ((delimited_token _).map _).local _).bind fun neg => ?_
  refine local_digits.bind fun int => ?_
  split_ifs
  · exact delimited_fail.local
  · refine (Local.optional ((delimited_token _).local.bind fun _ => local_digits) _).bind fun frac => ?_
    refine (Local.optional (local_exponent.bind fun _ => (delimited_done _).local) _).bind fun exp => ?_
    exact (delimited_done _).local

theorem delimited_spaces_next {α : Type} {f : Char → Reader Char α} (hf : ∀ c, (f c).Delimited) :
    (spaces.bind fun _ => next.bind f).Delimited :=
  local_spaces.bind_delimited (fun _ => delimited_next.bind hf) fun _ => rfl

theorem delimited_separated {α : Type} (closing : Char) {item : Reader Char α}
    {more : Reader Char (List α)} (hitem : item.Local) (hmore : more.Delimited) :
    (separated closing item more).Delimited := by
  refine hitem.bind_delimited (fun x => delimited_spaces_next fun c => ?_) fun _ => rfl
  exact Delimited.ite (hmore.map _) (Delimited.ite (delimited_done _) delimited_fail)

theorem delimited_enclosed {α : Type} (opening closing : Char) {items : Reader Char (List α)}
    (hitems : items.Delimited) : (enclosed opening closing items).Delimited := by
  refine (delimited_token _).bind fun _ => local_spaces.bind_delimited (fun _ => ?_) fun _ => rfl
  exact Delimited.look ((delimited_token _).map _) hitems

theorem local_member {name : Reader Char String} {value : Reader Char Json} (hname : name.Local)
    (hvalue : value.Local) : (member name value).Local :=
  local_spaces.bind fun _ => hname.bind fun _ => local_spaces.bind fun _ =>
    (delimited_token _).local.bind fun _ => hvalue.bind fun _ => (delimited_done _).local

theorem delimited_word (text : String) (v : Json) : (word text v).Delimited :=
  (delimited_tokens _).map _

theorem local_valueWith {name : Reader Char String} {items : Reader Char (List Json)}
    {ms : Reader Char Members} (hname : name.Delimited) (hitems : items.Delimited)
    (hms : ms.Delimited) : (valueWith name items ms).Local := by
  refine local_spaces.bind fun _ => ?_
  refine Local.look (hname.map _).local (Local.look ?_ (Local.look ?_ (Local.look local_number ?_)))
  · exact ((delimited_enclosed _ _ hitems).map _).local
  · exact ((delimited_enclosed _ _ hms).map _).local
  · exact (Delimited.look (delimited_word _ _)
      (Delimited.look (delimited_word _ _) (delimited_word _ _))).local

theorem local_value (n : ℕ) : (value n).Local ∧ (elements n).Delimited ∧ (members n).Delimited := by
  induction n with
  | zero => exact ⟨delimited_fail.local, delimited_fail, delimited_fail⟩
  | succ n ih =>
    obtain ⟨hvalue, helements, hmembers⟩ := ih
    refine ⟨local_valueWith (delimited_string n) helements hmembers, ?_, ?_⟩
    · exact delimited_separated _ hvalue helements
    · exact delimited_separated _ (local_member (delimited_string n).local hvalue) hmembers

/-! ### More nesting -/

theorem chars_le (n : ℕ) : (chars n).Le (chars (n + 1)) := by
  induction n with
  | zero => exact fail_le _
  | succ n ih =>
    refine (Le.refl _).bind fun c => ?_
    cases c with
    | none => exact .refl _
    | some c => exact ih.map _

theorem string_le (n : ℕ) : (string n).Le (string (n + 1)) :=
  (Le.refl _).bind fun _ => (chars_le n).map _

theorem separated_le {α : Type} (closing : Char) {item item' : Reader Char α}
    {more more' : Reader Char (List α)} (hitem : item.Le item') (hmore : more.Le more') :
    (separated closing item more).Le (separated closing item' more') :=
  hitem.bind fun _ => (Le.refl _).bind fun _ => (Le.refl _).bind fun _ =>
    Le.ite (hmore.map _) (.refl _)

theorem enclosed_le {α : Type} (opening closing : Char) {items items' : Reader Char (List α)}
    (h : items.Le items') : (enclosed opening closing items).Le (enclosed opening closing items') :=
  (Le.refl _).bind fun _ => (Le.refl _).bind fun _ => Le.look (.refl _) h

theorem valueWith_le {name name' : Reader Char String} {items items' : Reader Char (List Json)}
    {ms ms' : Reader Char Members} (hname : name.Le name') (hitems : items.Le items')
    (hms : ms.Le ms') : (valueWith name items ms).Le (valueWith name' items' ms') :=
  (Le.refl _).bind fun _ => Le.look (hname.map _) (Le.look ((enclosed_le _ _ hitems).map _)
    (Le.look ((enclosed_le _ _ hms).map _) (.refl _)))

theorem value_le_succ (n : ℕ) : (value n).Le (value (n + 1)) ∧
    (elements n).Le (elements (n + 1)) ∧ (members n).Le (members (n + 1)) := by
  induction n with
  | zero => exact ⟨fail_le _, fail_le _, fail_le _⟩
  | succ n ih =>
    obtain ⟨hvalue, helements, hmembers⟩ := ih
    refine ⟨valueWith_le (string_le n) helements hmembers, separated_le _ hvalue helements, ?_⟩
    refine separated_le _ ?_ hmembers
    exact (Le.refl _).bind fun _ => (string_le n).bind fun _ => (Le.refl _).bind fun _ =>
      (Le.refl _).bind fun _ => hvalue.map _

theorem value_le {n m : ℕ} (h : n ≤ m) : (value n).Le (value m) := by
  induction m, h using Nat.le_induction with
  | base => exact .refl _
  | succ m _ ih => exact fun ts r hr => (value_le_succ m).1 ts r (ih ts r hr)

/-! ### Prefixes of an object -/

theorem delimited_object (n : ℕ) {ts more rest rest' : List Char} {v v' : Json}
    (h : value n ('\x7b' :: ts) = some (v, rest))
    (h' : value n ('\x7b' :: ts ++ more) = some (v', rest')) : v = v' ∧ rest' = rest ++ more := by
  cases n with
  | zero => cases h
  | succ n =>
    have hobject : ((enclosed '\x7b' '\x7d' (members n)).map Json.obj).Delimited :=
      (delimited_enclosed _ _ (local_value n).2.2).map _
    exact hobject.of_shorter h h'

/-- What can be read of the text of an object is the object. Only spaces behind it
can be missing. -/
theorem parse_shorter {ts more : List Char} {v v' : Json} {rest : List Char}
    (h : value (('\x7b' :: ts ++ more).length + 1) ('\x7b' :: ts ++ more) = some (v, rest))
    (hparse : parse ('\x7b' :: ts) = some v') : v' = v ∧ more <:+ rest := by
  unfold parse at hparse
  split at hparse
  · next w rest' hw =>
    split_ifs at hparse
    cases hparse
    have hle : ('\x7b' :: ts).length + 1 ≤ ('\x7b' :: ts ++ more).length + 1 := by simp
    obtain ⟨rfl, rfl⟩ := delimited_object _ (value_le hle _ _ hw) h
    exact ⟨rfl, List.suffix_append _ _⟩
  · cases hparse

end JsonText

end Spiffile
