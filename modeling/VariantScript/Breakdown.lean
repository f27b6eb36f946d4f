import VariantScript.Text.Digit
import VariantScript.Text.Literal

/-!
# Breakdowns

How a computation ends where no rule of the language names a fault: numbers that do not exist, data
of the wrong shape, parts that are not there.  A breakdown has a kind and words, but no place in a
script, and nothing in a script can tell it from the end of the run.
-/

namespace VariantScript

/-- Why a computation breaks down. -/
inductive Breakdown where
  /-- A remainder that does not exist. -/
  | noRemainder
  /-- A literal that names no number. -/
  | noNumber (literal : String)
  /-- A literal that names no whole number. -/
  | noWhole (literal : String)
  /-- A whole number beyond all doubles. -/
  | tooLarge
  /-- A whole number with too many digits to be written. -/
  | tooManyDigits
  /-- A value of a type without items where a sequence is asked for. -/
  | notIterable (type : String)
  /-- A value of a type without parts where it is to be taken apart. -/
  | notUnpackable (type : String)
  /-- A value of a type without length. -/
  | noLength (type : String)
  /-- A value of a type that cannot be a key. -/
  | unhashable (type : String)
  /-- A value of a type that holds no written data. -/
  | notText (type : String)
  /-- Fewer parts than there are names for them. -/
  | tooFewParts (expected got : Nat)
  /-- Fewer parts than have to be there, where any more are welcome. -/
  | tooFewLeading (expected got : Nat)
  /-- More parts than there are names for them. -/
  | tooManyParts (expected : Nat)
  /-- The first of no items. -/
  | noItem
  /-- A part that values of a type do not have. -/
  | noAttribute (type name : String)
  /-- A cursor behind the end of a text. -/
  | cursorBeyond (text : String) (cursor : Int)
  /-- A change of a setting that does not exist. -/
  | unknownSetting (name : String)
  /-- A name of a threshold under which something else is kept. -/
  | notALevel (got : String)
  /-- A threshold to be compared that is none. -/
  | incomparableLevel
  /-- A path with a character that ends paths. -/
  | brokenPath
  /-- A key that no keyboard has. -/
  | unknownKey (name : String)
deriving DecidableEq, Repr

/-- The kinds of breakdowns. -/
inductive BreakdownKind where
  | value
  | overflow
  | type
  | index
  | attribute
  | assertion
deriving DecidableEq, Repr

namespace Breakdown

/-- The breakdown of naming a number of parts where there is another number of them. -/
def ofParts (expected got : Nat) : Breakdown :=
  if got < expected then .tooFewParts expected got else .tooManyParts expected

/-- The kind of a breakdown. -/
def kind : Breakdown → BreakdownKind
  | noRemainder | noNumber _ | noWhole _ | tooManyDigits | tooFewParts _ _ | tooFewLeading _ _
  | tooManyParts _ | notALevel _ | brokenPath | unknownKey _ => .value
  | tooLarge => .overflow
  | notIterable _ | notUnpackable _ | noLength _ | unhashable _ | notText _ | unknownSetting _
  | incomparableLevel => .type
  | noItem => .index
  | noAttribute _ _ => .attribute
  | cursorBeyond _ _ => .assertion

/-- What is said about a breakdown. -/
def message : Breakdown → String
  | noRemainder => "math domain error"
  | noNumber literal => s!"could not convert string to float: {Text.literal literal}"
  | noWhole literal => s!"invalid literal for int() with base 10: {Text.literal literal}"
  | tooLarge => "int too large to convert to float"
  | tooManyDigits =>
      s!"Exceeds the limit ({Text.digitBound} digits) for integer string conversion; use " ++
        "sys.set_int_max_str_digits() to increase the limit"
  | notIterable type => s!"'{type}' object is not iterable"
  | notUnpackable type => s!"cannot unpack non-iterable {type} object"
  | noLength type => s!"object of type '{type}' has no len()"
  | unhashable type => s!"unhashable type: '{type}'"
  | notText type => s!"the JSON object must be str, bytes or bytearray, not {type}"
  | tooFewParts expected got =>
      s!"not enough values to unpack (expected {expected}, got {got})"
  | tooFewLeading expected got =>
      s!"not enough values to unpack (expected at least {expected}, got {got})"
  | tooManyParts expected => s!"too many values to unpack (expected {expected})"
  | noItem => "list index out of range"
  | noAttribute type name => s!"'{type}' object has no attribute '{name}'"
  | cursorBeyond text cursor => s!"[{Text.literal text}, {cursor}]"
  | unknownSetting name =>
      s!"HarnessConfig.__init__() got an unexpected keyword argument '{name}'"
  | notALevel got => s!"Unknown level: {Text.literal got}"
  | incomparableLevel => "'<' not supported between instances of 'int' and 'str'"
  | brokenPath => "embedded null byte"
  | unknownKey name => s!"Invalid key: {name}"

end Breakdown

end VariantScript
