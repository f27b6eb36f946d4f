import VariantScript.Evaluation.World
import VariantScript.Number.Remainder
import VariantScript.Text.Split
import VariantScript.Value.Comparison

/-!
# Operations on values

Operators, access to parts, and the built-in operations that are offered to every script.
-/

namespace VariantScript

open Syntax

/-! ## Operands -/

/-- The number that an operand has to be. -/
def requireNumber (context : String) : Value → Except Cause Float
  | .number _ x => .ok x
  | other => .error (.expectsNumbers context other)

/-- The truth value that a condition has to be. -/
def requireTruth (context : String) (v : Value) : Except Cause Bool :=
  match v.truth? with
  | some flag => .ok flag
  | none => .error (.expectsBoolean context v)

/-! ## Operators -/

/-- Whether a double is a zero of either sign. -/
def isZero (x : Float) : Bool := x == 0

/-- Applies an operator of arithmetic to two numbers. -/
def calculate (op : BinaryOp) (x y : Float) : Eval Value :=
  match op with
  | .add => Eval.makeNumber (x + y)
  | .subtract => Eval.makeNumber (x - y)
  | .multiply => Eval.makeNumber (x * y)
  | .divide => if isZero y then Eval.fail .divisionByZero else Eval.makeNumber (x / y)
  | .remainder =>
      if isZero y then Eval.fail .moduloByZero
      else
        match Number.remainder? x y with
        | some r => Eval.makeNumber r
        | none => Eval.breakDown .noRemainder
  | .unknown text => Eval.fail (.unknownOperator text)

/-- Applies an operator of arithmetic; addition also joins strings. -/
def applyBinary (op : BinaryOp) (left right : Value) : Eval Value :=
  match op with
  | .add =>
      match left, right with
      | .number _ x, .number _ y => calculate .add x y
      | .string s, .string t => pure (.string (s ++ t))
      | _, _ => Eval.fail (.cannotAdd left right)
  | other => do
      let x ← Eval.ofExcept (requireNumber other.spelling left)
      let y ← Eval.ofExcept (requireNumber other.spelling right)
      calculate other x y

/-- Compares two numbers by order; `none` for an operator that does not compare by order. -/
def compareNumbers (op : CompareOp) (x y : Float) : Option Bool :=
  match op with
  | .less => some (x < y)
  | .lessOrSame => some (x ≤ y)
  | .greater => some (y < x)
  | .greaterOrSame => some (y ≤ x)
  | _ => none

/-- Compares two strings by order of their characters. -/
def compareStrings (op : CompareOp) (s t : String) : Option Bool :=
  match op with
  | .less => some (s < t)
  | .lessOrSame => some (s ≤ t)
  | .greater => some (t < s)
  | .greaterOrSame => some (t ≤ s)
  | _ => none

/-- Applies an operator of comparison. -/
def applyCompare (op : CompareOp) (left right : Value) : Except Cause Bool :=
  match op with
  | .same | .looselySame => .ok (left.strictlyEqual right)
  | .differs | .looselyDiffers => .ok (! left.strictlyEqual right)
  | other =>
      let answer? : Except Cause (Option Bool) :=
        match left, right with
        | .number _ x, .number _ y => .ok (compareNumbers other x y)
        | .string s, .string t => .ok (compareStrings other s t)
        | _, _ => .error (.cannotCompare left other.spelling right)
      match answer? with
      | .ok (some flag) => .ok flag
      | .ok none => .error (.unknownComparison other.spelling)
      | .error cause => .error cause

/-! ## Parts -/

/-- The length of an array or string as a number. -/
def makeLength (n : Nat) : Eval Value :=
  Eval.makeNumber (Float.ofNat n)

/-- A field of a record, or the length of an array or string. -/
def getField (receiver : Value) (name : String) : Eval Value :=
  match receiver with
  | .record _ slots =>
      match Slots.get? slots name with
      | some value => pure value
      | none => Eval.fail (.keyNotFound name)
  | .array _ items =>
      if name = "length" then makeLength items.length
      else Eval.fail (.noProperty name receiver)
  | .string text =>
      if name = "length" then makeLength text.length
      else Eval.fail (.noProperty name receiver)
  | _ => Eval.fail (.noProperty name receiver)

/-- The position that an index names in a sequence of some length. -/
def positionOf (index : Value) (length : Nat) : Except Cause Nat :=
  match index with
  | .number _ x =>
      match Number.whole? x with
      | some n =>
          if 0 ≤ n ∧ n < length then .ok n.toNat else .error (.outOfBounds n length)
      | none => .error (.indexNotWhole index)
  | _ => .error (.indexNotWhole index)

/-- An item of an array, a character of a string, or a field of a record. -/
def getIndex (receiver index : Value) : Eval Value :=
  match receiver with
  | .array _ items => do
      let i ← Eval.ofExcept (positionOf index items.length)
      match items[i]? with
      | some item => pure item
      | none => Eval.fail (.outOfBounds i items.length)
  | .string text => do
      let i ← Eval.ofExcept (positionOf index text.length)
      match text.toList[i]? with
      | some c => pure (.string (String.ofList [c]))
      | none => Eval.fail (.outOfBounds i text.length)
  | .record _ _ =>
      match index with
      | .string name => getField receiver name
      | other => Eval.fail (.keyNotString other)
  | other => Eval.fail (.cannotIndex other)

/-! ## Built-in operations -/

/-- The two items of the pair that an operation is called with. -/
def requirePair (operation : Builtin) : Value → Except Cause (Value × Value)
  | .array _ [left, right] => .ok (left, right)
  | _ => .error (.expectsPair operation)

/-- Runs a built-in operation on its argument. -/
def runBuiltin (operation : Builtin) (arg : Value) : Eval Value :=
  match operation with
  | .split => do
      match ← Eval.ofExcept (requirePair .split arg) with
      | (.string text, .string separator) =>
          Eval.makeList ((Text.split text separator).map Value.string)
      | _ => Eval.fail .expectsStrings
  | .debug => do
      Eval.observe arg
      return arg
  | .equal => do
      let (left, right) ← Eval.ofExcept (requirePair .equal arg)
      return Value.truth (Value.structurallyEqual (← get).legacy left right)

/-- The value of the language that the result of a call has to be; nothing of the host counts as
unit. -/
def requireResult : Value → Except Cause Value
  | .foreign _ .null => .ok Value.unit
  | .foreign _ data => .error (.foreignResult data.typeName)
  | v => .ok v

/-- Calls a built-in operation, which takes one argument. -/
def callBuiltin (operation : Builtin) (args : List Value) : Eval Value :=
  match args with
  | [arg] => do Eval.ofExcept (requireResult (← runBuiltin operation arg))
  | _ => Eval.fail (.arity operation.name 1 args.length)

end VariantScript
