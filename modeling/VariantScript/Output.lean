import VariantScript.Log

/-!
# Output

What is written to the two channels of a terminal, in one order.
-/

namespace VariantScript

/-- A text on one of the channels. -/
inductive Output where
  | standard (text : String)
  | diagnostic (text : String)
deriving DecidableEq, Repr

namespace Output

/-- The text that reaches the standard channel. -/
def standard? : Output → Option String
  | standard text => some text
  | diagnostic _ => none

/-- The text that reaches the diagnostic channel. -/
def diagnostic? : Output → Option String
  | standard _ => none
  | diagnostic text => some text

/-- All that is written to the standard channel. -/
def standardText (written : List Output) : String :=
  String.join (written.filterMap standard?)

/-- All that is written to the diagnostic channel. -/
def diagnosticText (written : List Output) : String :=
  String.join (written.filterMap diagnostic?)

/-- The line for a value that was shown. -/
def debugLine (value : Value) : String :=
  s!"debug: {value.display}\n"

/-- What is written for an event: a shown value goes where `put` says, log entries from a
threshold on go to the diagnostic channel. -/
def ofEvent? (threshold : Log.Threshold) (put : String → Output) (e : Event) : Option Output :=
  match e with
  | .observed value => some (put (debugLine value))
  | other =>
      match other.entry? with
      | some entry => if threshold.admits entry then some (diagnostic (entry.line ++ "\n")) else none
      | none => none

end Output

end VariantScript
