import VariantScript.Value.Display

/-!
# Errors between script and host

Why a value cannot pass between a script and the program around it.  An error names the value that
is in the way; if that value cannot be shown, there is no error but a breakdown.
-/

namespace VariantScript

/-- Why a value cannot pass between script and host. -/
inductive MarshalError where
  | unknownBranch (name : String) (family : Family)
  | notABoolean (got : Value)
  | tailNotAList (got : Value)
  | keyTypeNotText (type : String)
  | unsupported (type : String)
  | isFunction (got : Value)
  | notAValue (type : String)
  | notAList (got : Value)
  | notAPair (got : Host)
  | keyNotText (got : Host)
  | notARecord (got : Value)
  | notFinite (shown : Option String)

/-- What stops the passing of values between script and host. -/
inductive MarshalStop where
  | refused (error : MarshalError)
  | breakdown (breakdown : Breakdown)

namespace MarshalError

/-- What is said about the error. -/
def message : MarshalError → String
  | unknownBranch name family => s!"'{name}' is not a branch of {family.name}"
  | notABoolean got => s!"Expected a boolean variant, got {got.display}"
  | tailNotAList got => s!"List tail must be a list, got {got.display}"
  | keyTypeNotText type => s!"Record keys must be strings, got {type}"
  | unsupported type => s!"Cannot marshal {type} into a value"
  | isFunction got => s!"Cannot marshal function {got.display} to a host value"
  | notAValue type => s!"Unexpected value type {type}"
  | notAList got => s!"Expected a list, got {got.display}"
  | notAPair got => s!"Record entries must be [key, value] pairs, got {got.display}"
  | keyNotText got => s!"Record keys must be strings, got {got.display}"
  | notARecord got => s!"Expected a record, got {got.display}"
  | notFinite shown =>
      "Cannot serialize value: Out of range float values are not JSON compliant" ++
        (shown.map (": " ++ ·)).getD ""

/-- What saying it breaks down with. -/
def defect? : MarshalError → Option Breakdown
  | notABoolean got | tailNotAList got | isFunction got | notAList got | notARecord got =>
      got.defect?
  | notAPair got | keyNotText got => got.defect?
  | _ => none

/-- The error, or the breakdown of saying it. -/
def stop (e : MarshalError) : MarshalStop :=
  match e.defect? with
  | some b => .breakdown b
  | none => .refused e

end MarshalError

/-- What is said about what stops the passing of values. -/
def MarshalStop.message : MarshalStop → String
  | refused e => e.message
  | breakdown b => b.message

end VariantScript
