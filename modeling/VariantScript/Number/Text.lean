import VariantScript.Number.Shortest
import VariantScript.Text.Blank
import VariantScript.Text.Digit

/-!
# Numbers as text

How a double is written: the shortest digits that read back, positional for exponents of the leading
digit from -4 to 15 and scientific beyond, always with a point or an exponent.  How a decimal is
read: rounded to the nearest double, from a sign, digits with single underscores between them, a
fraction, an exponent, or the name of an infinity or of the value that is no number.
-/

namespace VariantScript.Number

/-- The choices that fix how digits are laid out. -/
structure Layout where
  /-- The smallest exponent that is written positionally. -/
  least : Int
  /-- The first exponent that is written scientifically again. -/
  bound : Int
  /-- The least number of digits of a written exponent. -/
  exponentDigits : Nat

/-- Positional from 1e-4 up to 1e16, exponents with a sign and at least two digits. -/
def layout : Layout := ⟨-4, 16, 2⟩

/-- Fills a text up to a width with zeros on the left. -/
def padZeros (width : Nat) (digits : List Char) : List Char :=
  List.replicate (width - digits.length) '0' ++ digits

/-- The digits without the zeros at their end. -/
def dropTrailingZeros (digits : List Char) : List Char :=
  (digits.reverse.dropWhile (· = '0')).reverse

/-- The decimal digits of a natural number. -/
def decimalDigits (n : Nat) : List Char :=
  Nat.toDigits 10 n

/-- Writes the digits `d₀d₁d₂…` of the number `d₀.d₁d₂… · 10^exponent`. -/
def Layout.write (l : Layout) (digits : List Char) (exponent : Int) : List Char :=
  if l.least ≤ exponent ∧ exponent < l.bound then
    if exponent < 0 then
      '0' :: '.' :: (List.replicate (-exponent - 1).toNat '0' ++ digits)
    else
      let before := exponent.toNat + 1
      let padded := digits ++ List.replicate (before - digits.length) '0'
      let fraction := padded.drop before
      padded.take before ++ '.' :: (if fraction.isEmpty then ['0'] else fraction)
  else
    let sign := if exponent < 0 then '-' else '+'
    let mantissa := match digits with
      | [] => []
      | [d] => [d]
      | d :: rest => d :: '.' :: rest
    mantissa ++ 'e' :: sign :: padZeros l.exponentDigits (decimalDigits exponent.natAbs)

/-- Writes a positive decimal. -/
def Layout.writeScientific (l : Layout) (s : Scientific) : List Char :=
  let digits := decimalDigits s.digits
  l.write (dropTrailingZeros digits) (s.exponent + digits.length - 1)

/-- The text of a double. -/
def text (x : Float) : String :=
  match shape x with
  | .notANumber => "nan"
  | .infinite negative => if negative then "-inf" else "inf"
  | .finite negative m e =>
      let magnitude := if m = 0 then ['0', '.', '0'] else layout.writeScientific (shortest m e)
      String.ofList (if negative then '-' :: magnitude else magnitude)

/-- The text of a double in messages: whole numbers are written as such, with all their digits. -/
def display (x : Float) : String :=
  match whole? x with
  | some n => toString n
  | none => text x

/-! ## Reading -/

/-- A run of digits with single underscores between them, the digits of a number read so far being
`value` and `count`; gives the number, the count of digits and the rest. -/
def readDigits (value count : Nat) : List Char → Nat × Nat × List Char
  | [] => (value, count, [])
  | c :: rest =>
      if c.isDigit then readDigits (10 * value + (c.toNat - '0'.toNat)) (count + 1) rest
      else if c = '_' ∧ 0 < count ∧ rest.head?.any Char.isDigit then readDigits value count rest
      else (value, count, c :: rest)

/-- The sign at the head of a text, and the rest. -/
def readSign : List Char → Bool × List Char
  | '-' :: rest => (true, rest)
  | '+' :: rest => (false, rest)
  | rest => (false, rest)

/-- An exponent part, which may be absent; it is refused if digits are missing. -/
def readExponent : List Char → Option Int
  | [] => some 0
  | c :: rest =>
      if c = 'e' ∨ c = 'E' then
        let (negative, rest) := readSign rest
        match readDigits 0 0 rest with
        | (e, count, []) => if count = 0 then none else some (if negative then -(e : Int) else e)
        | _ => none
      else none

/-- The double nearest to `m · 10^e`. -/
def ofDecimal (m : Nat) (e : Int) : Float :=
  Float.ofScientific m (e < 0) e.natAbs

/-- A decimal without sign: digits with an optional point, then an optional exponent. -/
def readMagnitude (cs : List Char) : Option Float :=
  let (before, count, rest) := readDigits 0 0 cs
  match rest with
  | '.' :: fraction =>
      let (all, extra, rest) :=
        if fraction.head?.any Char.isDigit then
          let (value, total, rest) := readDigits before 0 fraction
          (value, total, rest)
        else (before, 0, fraction)
      -- One side of the point may be empty, not both.
      if count + extra = 0 then none
      else (readExponent rest).map fun e => ofDecimal all (e - extra)
  | _ =>
      if count = 0 then none else (readExponent rest).map fun e => ofDecimal before e

/-- The double that a text names in the digits from 0 to 9, without blanks around it. -/
def read? (cs : List Char) : Option Float :=
  let (negative, rest) := readSign cs
  let word := String.ofList (rest.map Char.toLower)
  let magnitude? :=
    if word = "inf" ∨ word = "infinity" then some (1 / 0)
    else if word = "nan" then some (0 / 0)
    else readMagnitude rest
  magnitude?.map fun x => if negative then -x else x

/-! ## Reading with blanks around and digits of any script -/

/-- Whether a character may stand around a number; the separators of records may not. -/
def isMargin (c : Char) : Bool :=
  VariantScript.Text.isBlank c && ! (0x1C ≤ c.toNat && c.toNat ≤ 0x1F)

/-- The text without what may stand around a number. -/
def trimMargins (cs : List Char) : List Char :=
  ((cs.dropWhile isMargin).reverse.dropWhile isMargin).reverse

/-- The digit from 0 to 9 for a digit of any script, all else unchanged. -/
def basicDigit (c : Char) : Char :=
  match VariantScript.Text.digit? c with
  | some d => Char.ofNat ('0'.toNat + d)
  | none => c

/-- The double that a text names, perhaps with blanks around it and digits of any script. -/
def readLoose? (cs : List Char) : Option Float :=
  match read? cs with
  | some x => some x
  | none => read? ((trimMargins cs).map basicDigit)

/-- The whole number that a text names, perhaps with blanks around it and digits of any script. -/
def readWhole? (cs : List Char) : Option Int :=
  let (negative, digits) := readSign ((trimMargins cs).map basicDigit)
  match readDigits 0 0 digits with
  | (n, count, []) => if count = 0 then none else some (if negative then -(n : Int) else n)
  | _ => none

theorem readLoose?_of_read? {cs : List Char} {x : Float} (h : read? cs = some x) :
    readLoose? cs = some x := by
  simp [readLoose?, h]

end VariantScript.Number
