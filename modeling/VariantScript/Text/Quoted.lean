import VariantScript.Text.Literal

/-!
# Quoted strings of the data format

Strings are written between double quotes.  Writing escapes the quote, the backslash and the control
characters only; reading also knows the escaped slash and code units in hexadecimal, of which two
halves of a surrogate pair make one character, and refuses control characters.
-/

namespace VariantScript.Text.Quoted

/-- How a character is written inside a quoted string. -/
def encodeChar (c : Char) : List Char :=
  if c = '"' then ['\\', '"']
  else if c = '\\' then ['\\', '\\']
  else if c = '\n' then ['\\', 'n']
  else if c = '\r' then ['\\', 'r']
  else if c = '\t' then ['\\', 't']
  else if c = '\x08' then ['\\', 'b']
  else if c = '\x0c' then ['\\', 'f']
  else if c.toNat < 0x20 then '\\' :: 'u' :: hexDigits 4 c.toNat
  else [c]

/-- The written form of a string, quotes included. -/
def encode (cs : List Char) : List Char :=
  '"' :: cs.flatMap encodeChar ++ ['"']

/-- The value of a hexadecimal digit. -/
def hexValue? (c : Char) : Option Nat :=
  if '0' ≤ c ∧ c ≤ '9' then some (c.toNat - '0'.toNat)
  else if 'a' ≤ c ∧ c ≤ 'f' then some (c.toNat - 'a'.toNat + 10)
  else if 'A' ≤ c ∧ c ≤ 'F' then some (c.toNat - 'A'.toNat + 10)
  else none

/-- The code unit that four hexadecimal digits name. -/
def unit? (a b c d : Char) : Option Nat := do
  let a ← hexValue? a
  let b ← hexValue? b
  let c ← hexValue? c
  let d ← hexValue? d
  return ((a * 16 + b) * 16 + c) * 16 + d

/-- The first half of a surrogate pair. -/
def isHighSurrogate (u : Nat) : Bool := 0xD800 ≤ u && u < 0xDC00

/-- The second half of a surrogate pair. -/
def isLowSurrogate (u : Nat) : Bool := 0xDC00 ≤ u && u < 0xE000

/-- The character that a surrogate pair names. -/
def pairChar (high low : Nat) : Char :=
  Char.ofNat (0x10000 + (high - 0xD800) * 0x400 + (low - 0xDC00))

/-- The character that a code unit names alone; half a pair names none and is replaced. -/
def unitChar (u : Nat) : Char :=
  if isHighSurrogate u || isLowSurrogate u then '\uFFFD' else Char.ofNat u

/-- The character that a one-letter escape names. -/
def escape? : Char → Option Char
  | '"' => some '"'
  | '\\' => some '\\'
  | '/' => some '/'
  | 'b' => some '\x08'
  | 'f' => some '\x0c'
  | 'n' => some '\n'
  | 'r' => some '\r'
  | 't' => some '\t'
  | _ => none

/-- Puts a character before what is read behind it. -/
def consChar (c : Char) : Option (List Char × List Char) → Option (List Char × List Char)
  | some (cs, rest) => some (c :: cs, rest)
  | none => none

/-- Reads up to the closing quote; gives the string and what follows. -/
def decodeBody : List Char → Option (List Char × List Char)
  | [] => none
  | '"' :: rest => some ([], rest)
  | '\\' :: 'u' :: a :: b :: c :: d :: '\\' :: 'u' :: e :: f :: g :: h :: rest =>
      match unit? a b c d, unit? e f g h with
      -- Two units make one character if they are the halves of a pair, else the second starts anew.
      | some high, some low =>
          if isHighSurrogate high && isLowSurrogate low then
            consChar (pairChar high low) (decodeBody rest)
          else consChar (unitChar high) (decodeBody ('\\' :: 'u' :: e :: f :: g :: h :: rest))
      | _, _ => none
  | '\\' :: 'u' :: a :: b :: c :: d :: rest =>
      match unit? a b c d with
      | some u => consChar (unitChar u) (decodeBody rest)
      | none => none
  | '\\' :: c :: rest =>
      match escape? c with
      | some c => consChar c (decodeBody rest)
      | none => none
  | c :: rest => if c.toNat < 0x20 then none else consChar c (decodeBody rest)
termination_by cs => cs.length

/-- The blanks that may surround a quoted string. -/
def isOuterBlank (c : Char) : Bool :=
  c = ' ' || c = '\t' || c = '\n' || c = '\r'

/-- The string that a text denotes, if the text is a quoted string. -/
def decode? (cs : List Char) : Option (List Char) :=
  match cs.dropWhile isOuterBlank with
  | '"' :: body =>
      match decodeBody body with
      | some (s, rest) => if rest.all isOuterBlank then some s else none
      | none => none
  | _ => none

end VariantScript.Text.Quoted
