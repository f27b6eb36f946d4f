import VariantScript.Value.Dispatch
import VariantScript.Value.Display

/-!
# Faults

What can go wrong while a script runs.  A fault has a cause, from which its kind and its words
follow, and the position of the innermost term with a position that was being evaluated.  A cause may
name values; if one of them cannot be shown, the run breaks down in place of the fault.
-/

namespace VariantScript

/-- Why a script fails. -/
inductive Cause where
  | alreadyDeclared (name : String)
  | illegalReturn
  | invalidString (literal : String)
  | malformedKey (shown : String)
  | unsupportedPattern (label : String)
  | unsupportedUnary (text : String)
  | unknownOperator (text : String)
  | unknownComparison (text : String)
  | unknownNode (label : String)
  | unhandledToken (type text : String)
  | divisionByZero
  | moduloByZero
  | observerFailed (text : String)
  | expectsNumbers (context : String) (got : Value)
  | expectsBoolean (context : String) (got : Value)
  | cannotAdd (left right : Value)
  | cannotCompare (left : Value) (op : String) (right : Value)
  | notAnArray (got : Value)
  | tooFewItems (expected got : Nat)
  | notARecord (got : Value)
  | noProperty (name : String) (receiver : Value)
  | indexNotWhole (got : Value)
  | keyNotString (got : Value)
  | cannotIndex (receiver : Value)
  | expectsPair (operation : Builtin)
  | expectsStrings
  | notAFunction (got : Value)
  | arity (label : String) (expected got : Nat)
  | notDefined (name : String)
  | keyNotFound (key : String)
  | outOfBounds (position : Int) (length : Nat)
  | thrown (value : Value)
  /-- A foreign value of a type where a call has to give a value of the language. -/
  | foreignResult (type : String)
  | dispatch (error : DispatchError)

/-- The kinds of faults. -/
inductive FaultKind where
  | runtime
  | type
  | arity
  | name
  | key
  | index
  | thrown
  | marshal
deriving DecidableEq, Repr

/-- What a value that cannot be called is named in messages. -/
def Value.describe : Value → String
  | .number id x => (Value.number id x).display
  | .string text => (Value.string text).display
  | .array _ _ => "array"
  | .record _ _ => "record"
  | other => other.typeName

namespace Cause

/-- The kind of fault that a cause makes. -/
def kind : Cause → FaultKind
  | expectsNumbers _ _ | expectsBoolean _ _ | cannotAdd _ _ | cannotCompare _ _ _ | notAnArray _
  | tooFewItems _ _ | notARecord _ | noProperty _ _ | indexNotWhole _ | keyNotString _
  | cannotIndex _ | expectsPair _ | expectsStrings | notAFunction _ | foreignResult _ => .type
  | arity _ _ _ => .arity
  | notDefined _ => .name
  | keyNotFound _ => .key
  | outOfBounds _ _ => .index
  | thrown _ => .thrown
  | dispatch _ => .marshal
  | _ => .runtime

/-- What is said about a cause. -/
def message : Cause → String
  | alreadyDeclared name => s!"Identifier '{name}' has already been declared"
  | illegalReturn => "Illegal return statement"
  | invalidString literal => s!"Invalid string literal {literal}"
  | malformedKey shown => s!"Malformed key {shown}"
  | unsupportedPattern label => s!"Unsupported pattern {label}"
  | unsupportedUnary text => s!"Unsupported unary op {text}"
  | unknownOperator text => s!"Unknown operator {text}"
  | unknownComparison text => s!"Unknown comparison {text}"
  | unknownNode label => s!"Unknown node: {label}"
  | unhandledToken type text => s!"Unhandled token {type}:{text}"
  | divisionByZero => "Division by zero"
  | moduloByZero => "Modulo by zero"
  | observerFailed text => s!"debug observer failed: {text}"
  | expectsNumbers context got => s!"{context} expects numbers, got {got.display}"
  | expectsBoolean context got => s!"{context} expects a boolean, got {got.display}"
  | cannotAdd left right => s!"Cannot add {left.display} and {right.display}"
  | cannotCompare left op right => s!"Cannot compare {left.display} {op} {right.display}"
  | notAnArray got => s!"Cannot destructure {got.display} as an array"
  | tooFewItems expected got => s!"Expected at least {expected} items to destructure; got {got}"
  | notARecord got => s!"Cannot destructure {got.display} as a record"
  | noProperty name receiver => s!"Cannot read property '{name}' of {receiver.display}"
  | indexNotWhole got => s!"Array index must be an integer, got {got.display}"
  | keyNotString got => s!"Record key must be a string, got {got.display}"
  | cannotIndex receiver => s!"Cannot index {receiver.display}"
  | expectsPair operation => s!"{operation.name} expects a [left, right] pair"
  | expectsStrings => "split expects a string and a string separator"
  | notAFunction got => s!"{got.describe} is not a function"
  | arity label expected got => s!"{label} expects {expected} args; got {got}"
  | notDefined name => s!"{name} is not defined"
  | keyNotFound key => s!"Key '{key}' not found"
  | outOfBounds position length => s!"Index {position} out of bounds for length {length}"
  | thrown value => s!"Uncaught {value.display}"
  | foreignResult type => s!"Unexpected value type {type}"
  | dispatch error => error.message

/-- What saying it breaks down with: the first defect of the values that are shown. -/
def defect? : Cause → Option Breakdown
  | expectsNumbers _ got | expectsBoolean _ got | notAnArray got | notARecord got | noProperty _ got
  | indexNotWhole got | keyNotString got | cannotIndex got | thrown got => got.defect?
  | cannotAdd left right | cannotCompare left _ right => left.defect?.or right.defect?
  | _ => none

end Cause

/-- A cause and the place where it came up. -/
structure Fault where
  cause : Cause
  location : Option Position

namespace Fault

/-- What is said about a fault, with its place at the end. -/
def message (f : Fault) : String :=
  match f.location with
  | some p => f.cause.message ++ p.note
  | none => f.cause.message

/-- The fault placed at a term, unless it has a place or the term has none. -/
def locate (pos : Option Position) (f : Fault) : Fault :=
  match f.location with
  | some _ => f
  | none => { f with location := pos }

end Fault

end VariantScript
