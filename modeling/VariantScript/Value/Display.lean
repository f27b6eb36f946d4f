import VariantScript.Value.Basic

/-!
# Values in messages

How messages show values of scripts and of the surrounding program.  A list that was put together by
hand may hold something that cannot be shown, and so may a whole number with too many digits; the first
such defect is what showing it breaks down with.
-/

namespace VariantScript

/-! ## Strings, functions and bytes -/

/-- A string between double quotes, with the quote and the backslash escaped. -/
def Value.quote (text : String) : String :=
  let escaped := text.toList.flatMap fun c => if c = '"' ∨ c = '\\' then ['\\', c] else [c]
  String.ofList ('"' :: escaped ++ ['"'])

/-- How messages show a function. -/
def Value.displayFunction (f : Closure) : String :=
  let label := f.label "anonymous"
  s!"<{f.kind.name} {label}/{f.params.length}>"

/-- How messages show a byte between quotes of a kind. -/
def Host.displayByte (mark : Char) (b : UInt8) : List Char :=
  let c := Char.ofNat b.toNat
  if b < 0x7F then Text.literalChar mark c else '\\' :: 'x' :: Text.hexDigits 2 b.toNat

/-- How messages show bytes. -/
def Host.displayBytes (content : String) : String :=
  let mark := Text.quoteMark content.toList
  let shown := content.toUTF8.toList.flatMap (displayByte mark)
  String.ofList ('b' :: mark :: shown ++ [mark])

/-! ## Whole values -/

mutual
/-- How messages show a value. -/
def Value.display : Value → String
  | .number _ x => Number.display x
  | .string text => Value.quote text
  | .array _ items => "[" ++ String.intercalate ", " (Value.displayAll items) ++ "]"
  | .record _ [] => "\x7b\x7d"
  | .record _ (slot :: slots) =>
      "\x7b " ++ String.intercalate ", " (Value.displaySlots (slot :: slots)) ++ " \x7d"
  | .variant _ .yes _ => Tag.yes.name
  | .variant _ .no _ => Tag.no.name
  | .variant _ .head (.array _ [element, rest]) =>
      "list[" ++
        String.intercalate ", " (Value.display element :: Value.displayElements rest) ++ "]"
  | .variant _ _ _ => "list[]"
  | .closure _ f => Value.displayFunction f
  | .builtin operation => s!"<intrinsic {operation.name}>"
  | .foreign _ data => Host.display data

/-- How messages show several values. -/
def Value.displayAll : List Value → List String
  | [] => []
  | v :: vs => Value.display v :: Value.displayAll vs

/-- How messages show the elements of a list. -/
def Value.displayElements : Value → List String
  | .variant _ .head (.array _ [element, rest]) =>
      Value.display element :: Value.displayElements rest
  | _ => []

/-- How messages show fields. -/
def Value.displaySlots : List (String × Value) → List String
  | [] => []
  | (name, value) :: rest => (name ++ ": " ++ Value.display value) :: Value.displaySlots rest

/-- How messages show a host value. -/
def Host.display : Host → String
  | .null => "None"
  | .truth flag => if flag then "True" else "False"
  | .whole n => toString n
  | .float x => Number.text x
  | .text s => Text.literal s
  | .list items => "[" ++ String.intercalate ", " (Host.displayAll items) ++ "]"
  | .tuple [item] => "(" ++ Host.display item ++ ",)"
  | .tuple items => "(" ++ String.intercalate ", " (Host.displayAll items) ++ ")"
  | .map entries => "\x7b" ++ String.intercalate ", " (Host.displayEntries entries) ++ "\x7d"
  | .bytes content => Host.displayBytes content
  | .opaqueObject => "<object object>"
  | .value v => Value.display v

/-- How messages show several host values. -/
def Host.displayAll : List Host → List String
  | [] => []
  | h :: hs => Host.display h :: Host.displayAll hs

/-- How messages show the entries of a map. -/
def Host.displayEntries : List (Host × Host) → List String
  | [] => []
  | (k, v) :: rest => (Host.display k ++ ": " ++ Host.display v) :: Host.displayEntries rest
end

/-! ## Defects

The first defect of a value in the order in which its parts are shown.  Lists are walked cell by
cell, and what a cell holds is shown before the next cell is looked at. -/

mutual
/-- What showing a value breaks down with. -/
def Value.defect? : Value → Option Breakdown
  | .array _ items => Value.firstDefect? items
  | .record _ slots => Value.slotDefect? slots
  | .variant _ .head (.array _ [element, rest]) =>
      (Value.defect? element).or (Value.chainDefect? rest)
  | .variant _ .head payload => some payload.pairBreakdown
  | .foreign _ data => Host.defect? data
  | _ => none

/-- The first defect of several values. -/
def Value.firstDefect? : List Value → Option Breakdown
  | [] => none
  | v :: vs => (Value.defect? v).or (Value.firstDefect? vs)

/-- The first defect of the rest of a list. -/
def Value.chainDefect? : Value → Option Breakdown
  | .variant _ .head (.array _ [element, rest]) =>
      (Value.defect? element).or (Value.chainDefect? rest)
  | .variant _ .head payload => some payload.pairBreakdown
  | .variant _ _ _ => none
  | v => some (.noAttribute v.typeName "tag")

/-- The first defect of fields. -/
def Value.slotDefect? : List (String × Value) → Option Breakdown
  | [] => none
  | (_, v) :: rest => (Value.defect? v).or (Value.slotDefect? rest)

/-- What showing a host value breaks down with. -/
def Host.defect? : Host → Option Breakdown
  | .whole n =>
      if Text.digitBound < (Number.decimalDigits n.natAbs).length then some .tooManyDigits else none
  | .list items | .tuple items => Host.firstDefect? items
  | .map entries => Host.entryDefect? entries
  | .value v => Value.defect? v
  | _ => none

/-- The first defect of several host values. -/
def Host.firstDefect? : List Host → Option Breakdown
  | [] => none
  | h :: hs => (Host.defect? h).or (Host.firstDefect? hs)

/-- The first defect of entries. -/
def Host.entryDefect? : List (Host × Host) → Option Breakdown
  | [] => none
  | (k, v) :: rest => ((Host.defect? k).or (Host.defect? v)).or (Host.entryDefect? rest)
end

namespace Value

/-- The text that shows a value, if it can be shown. -/
def shown (v : Value) : Except Breakdown String :=
  match v.defect? with
  | some b => .error b
  | none => .ok v.display

/-- The text that a value is where a text is asked for: a text of the host is itself, all else is
shown. -/
def spoken : Value → String
  | .foreign _ (.text s) => s
  | v => v.display

end Value

end VariantScript
