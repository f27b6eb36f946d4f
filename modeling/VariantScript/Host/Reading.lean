import VariantScript.Host.Key
import VariantScript.Text.Quoted

/-!
# Reading data

A text of the data format is one item with blanks around it: a word, a number, a quoted string, a
list or a map.  Each kind of item has a function that takes it from the head of a text; what it
leaves is shorter, which is what the recursion ends by.
-/

namespace VariantScript.Json

/-- The text without the blanks at its head. -/
def skipBlanks (cs : List Char) : List Char :=
  cs.dropWhile Text.Quoted.isOuterBlank

theorem length_skipBlanks_le (cs : List Char) : (skipBlanks cs).length ≤ cs.length :=
  (List.dropWhile_suffix _).length_le

/-- What was taken from the head of fewer than `n` characters, and the characters behind it. -/
structure Taken (α : Type) (n : Nat) where
  item : α
  rest : List Char
  short : rest.length < n

/-- The same with its item changed, under a bound that may be larger. -/
def Taken.map {α β : Type} {m n : Nat} (t : Taken α m) (f : α → β)
    (h : m ≤ n := by (try simp only [List.length_cons] at *); omega) : Taken β n :=
  ⟨f t.item, t.rest, Nat.lt_of_lt_of_le t.short h⟩

/-- Takes a mark and the blanks before it. -/
def mark? (c : Char) (cs : List Char) : Option (Taken Unit cs.length) :=
  match h : skipBlanks cs with
  | d :: rest =>
      if d = c then
        some ⟨(), rest, by
          have bound := length_skipBlanks_le cs
          rw [h, List.length_cons] at bound
          omega⟩
      else none
  | [] => none

/-! ## Words and numbers -/

/-- The words and what they stand for. -/
def words : List (List Char × Host) :=
  [("null".toList, .null), ("true".toList, .truth true), ("false".toList, .truth false),
    ("NaN".toList, .float (0 / 0)), ("Infinity".toList, .float (1 / 0)),
    ("-Infinity".toList, .float (-1 / 0))]

/-- Takes a word. -/
def word? (cs : List Char) : Option (Taken Host cs.length) :=
  (words.find? fun w => w.1.isPrefixOf cs).bind fun (name, item) =>
    if h : (cs.drop name.length).length < cs.length then some ⟨item, cs.drop name.length, h⟩
    else none

/-- Whether a character can stand in a number. -/
def isNumberPart (c : Char) : Bool :=
  c.isDigit || c = '-' || c = '+' || c = '.' || c = 'e' || c = 'E'

/-- The number that a text without sign names: a zero or digits that start with none, and behind them
perhaps a fraction and an exponent.  Without these it is a whole number. -/
def magnitude? (cs : List Char) : Option Host :=
  let digits := cs.takeWhile Char.isDigit
  let rest := cs.dropWhile Char.isDigit
  if digits = [] ∨ (1 < digits.length ∧ digits.head? = some '0') then none
  else
    match rest with
    | [] =>
        if Text.digitBound < digits.length then none
        else some (.whole (Number.readDigits 0 0 digits).1)
    | '.' :: fraction =>
        if fraction.head?.any Char.isDigit then (Number.readMagnitude cs).map .float else none
    | _ => (Number.readMagnitude cs).map .float

/-- The number with the other sign. -/
def negate : Host → Host
  | .whole n => .whole (-n)
  | .float x => .float (-x)
  | other => other

/-- The number that a text names. -/
def number? : List Char → Option Host
  | '-' :: cs => (magnitude? cs).map negate
  | cs => magnitude? cs

/-- Takes a number: all characters that can stand in one have to make it up. -/
def takeNumber? (cs : List Char) : Option (Taken Host cs.length) :=
  (number? (cs.takeWhile isNumberPart)).bind fun item =>
    if h : (cs.dropWhile isNumberPart).length < cs.length then
      some ⟨item, cs.dropWhile isNumberPart, h⟩
    else none

/-! ## Strings, lists and maps -/

/-- Takes the rest of a string behind its opening quote. -/
def string? (cs : List Char) : Option (Taken String cs.length) :=
  (Text.Quoted.decodeBody cs).bind fun (text, rest) =>
    if h : rest.length < cs.length then some ⟨String.ofList text, rest, h⟩ else none

mutual
/-- Takes an item and the blanks before it. -/
def item? (cs : List Char) : Option (Taken Host cs.length) :=
  (bareItem? (skipBlanks cs)).map (·.map id (length_skipBlanks_le cs))
termination_by 3 * cs.length + 2
decreasing_by
  have := length_skipBlanks_le cs
  omega

/-- Takes an item with no blanks before it. -/
def bareItem? (cs : List Char) : Option (Taken Host cs.length) :=
  match cs with
  | '"' :: rest => (string? rest).map (·.map .text)
  | '[' :: rest =>
      match mark? ']' rest with
      | some t => some (t.map fun _ => .list [])
      | none => (items? rest).map (·.map .list)
  | '\x7b' :: rest =>
      match mark? '\x7d' rest with
      | some t => some (t.map fun _ => .map [])
      | none => (entries? rest).map (·.map Host.ofNamed)
  | cs => (word? cs).orElse fun _ => takeNumber? cs
termination_by 3 * cs.length + 1
decreasing_by all_goals (simp only [List.length_cons]; omega)

/-- Takes items with commas between them, up to the closing bracket. -/
def items? (cs : List Char) : Option (Taken (List Host) cs.length) := do
  let t ← item? cs
  have := t.short
  match mark? ',' t.rest with
  | some comma =>
      have := comma.short
      let ts ← items? comma.rest
      return ts.map (t.item :: ·)
  | none =>
      let close ← mark? ']' t.rest
      return close.map fun _ => [t.item]
termination_by 3 * cs.length + 3

/-- Takes entries with commas between them, up to the closing brace. -/
def entries? (cs : List Char) : Option (Taken (List (String × Host)) cs.length) := do
  let quote ← mark? '"' cs
  have := quote.short
  let key ← string? quote.rest
  have := key.short
  let colon ← mark? ':' key.rest
  have := colon.short
  let t ← item? colon.rest
  have := t.short
  match mark? ',' t.rest with
  | some comma =>
      have := comma.short
      let ts ← entries? comma.rest
      return ts.map ((key.item, t.item) :: ·)
  | none =>
      let close ← mark? '\x7d' t.rest
      return close.map fun _ => [(key.item, t.item)]
termination_by 3 * cs.length + 3
end

/-- The item that a text holds, with blanks around it. -/
def read? (cs : List Char) : Option Host :=
  match item? cs with
  | some t => if skipBlanks t.rest = [] then some t.item else none
  | none => none

end VariantScript.Json
