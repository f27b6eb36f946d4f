import VariantScript.Evaluation.World
import VariantScript.Host.Reading

/-!
# Binding patterns

How a value is taken apart by a pattern.  Names are defined from left to right; the first part of the
value that does not fit stops the binding, and the names before it stay defined.
-/

namespace VariantScript

open Syntax

/-- The data that a literal denotes: a text, or other data if the literal comes from no text. -/
def decodeLiteral (literal : String) : Except Cause Host :=
  match Text.Quoted.decode? literal.toList with
  | some cs => .ok (.text (String.ofList cs))
  | none =>
      match Json.read? literal.toList with
      | some data => .ok data
      | none => .error (.invalidString literal)

/-- The string that a literal denotes; other data make no string. -/
def decodeString (literal : String) : Eval String := do
  match ← Eval.ofExcept (decodeLiteral literal) with
  | .text s => return s
  | data => Eval.breakDown (.noAttribute data.typeName "replace")

/-- The name of a field that a literal denotes; other data name a field by the way they are shown, if
they can be a key. -/
def decodeName (literal : String) : Eval String := do
  match ← Eval.ofExcept (decodeLiteral literal) with
  | .text s => return s
  | data =>
      match data.keyDefect? with
      | some b => Eval.breakDown b
      | none => return data.display

/-- The field that a key names. -/
def Syntax.Key.decode (k : Key) : Eval String :=
  match k.name with
  | .bare name => return name.text
  | .quoted literal => decodeName literal.text
  | .malformed shown => Eval.fail (.malformedKey shown)
  | .broken b => Eval.breakDown b

mutual
/-- Binds the names of a pattern to the parts of a value. -/
def bindPattern (s : ScopeId) : Pattern → Value → Eval Unit
  | .name _ name, value => Eval.define s name.text value
  | .array _ patterns, value =>
      match value with
      | .array _ items =>
          if items.length < patterns.length then
            Eval.fail (.tooFewItems patterns.length items.length)
          else bindItems s patterns items
      | other => Eval.fail (.notAnArray other)
  | .record _ fields, value =>
      match value with
      | .record _ slots => bindFields s fields slots
      | other => Eval.fail (.notARecord other)
  | .unsupported label, _ => Eval.fail (.unsupportedPattern label)
  | .broken b, _ => Eval.breakDown b

/-- Binds patterns to values side by side; values without a pattern are left out. -/
def bindItems (s : ScopeId) : List Pattern → List Value → Eval Unit
  | p :: ps, v :: vs => do
      bindPattern s p v
      bindItems s ps vs
  | _, _ => pure ()

/-- Binds the fields of a pattern to the fields of a record. -/
def bindFields (s : ScopeId) : List PatternField → Slots → Eval Unit
  | .mk _ key pattern :: rest, slots => do
      let name ← key.decode
      match slots.get? name with
      | some value => bindPattern s pattern value
      | none => Eval.fail (.keyNotFound name)
      bindFields s rest slots
  | .broken b :: _, _ => Eval.breakDown b
  | [], _ => pure ()
end

end VariantScript
