import VariantScript.Evaluation.Binding
import VariantScript.Evaluation.Operation
import VariantScript.Host.Lift

/-!
# Operations on request

Operations of the language as the surrounding program may ask for them: on any values, foreign ones
included, and with values where a script could only have written an operator or a name.
-/

namespace VariantScript.Offered

open Syntax

/-- Goes on with a text that shows a value. -/
def say (v : Value) : Eval String :=
  match v.shown with
  | .ok text => pure text
  | .error b => Eval.breakDown b

/-- The values that a sequence hands in as arguments. -/
def arguments : Value → Eval (List Value)
  | .foreign _ data =>
      match data.items? with
      | .ok items => items.mapM fun h => do return h.toValue (← Eval.freshIdentity)
      | .error _ => Eval.breakDown (.noLength data.typeName)
  | v => Eval.breakDown (.noLength v.typeName)

/-- Applies the operator of arithmetic that a value names. -/
def binary (op left right : Value) : Eval Value := do
  match op with
  | .foreign _ (.text spelling) => applyBinary (.ofSpelling spelling) left right
  | _ => applyBinary (.unknown (← say op)) left right

/-- The field of a value that another value names; only texts name one. -/
def field (receiver name : Value) : Eval Value := do
  match name, receiver with
  | .foreign _ (.text s), _ => getField receiver s
  | _, .record _ _ =>
      match name.keyDefect? with
      | some b => Eval.breakDown b
      | none => Eval.fail (.keyNotFound (← say name))
  | _, _ => Eval.fail (.noProperty (← say name) receiver)

/-- What a requirement of a value comes to, whose failure names a context. -/
def inContext {α : Type} (require : String → Value → Except Cause α) (v context : Value) :
    Eval α := do
  match require context.spoken v with
  | .ok result => return result
  | .error cause =>
      let _ ← say context
      Eval.fail cause

/-- The truth value that a condition has to be. -/
def condition (v context : Value) : Eval Bool :=
  inContext requireTruth v context

/-- The number that an operand has to be. -/
def number (v context : Value) : Eval Float :=
  inContext requireNumber v context

/-- What a variant calls that is called with some arguments. -/
def dispatch (v : Value) (args : List Value) : Eval (Value × List Value) :=
  match v with
  | .variant _ tag payload =>
      Eval.ofExcept ((Value.dispatch tag payload args).mapError Cause.dispatch)
  | _ => Eval.breakDown (.noAttribute v.typeName (if args.length = 1 then "family" else "tag"))

/-- The mark of byte order that may stand at the head of bytes. -/
def byteOrderMark : Char := '\ufeff'

/-- The data that a literal denotes, which is a text or the bytes of one. -/
def decode : Value → Eval Host
  | .foreign _ (.text s) => Eval.ofExcept (decodeLiteral s)
  | .foreign _ (.bytes content) =>
      let cs := content.toList
      let text := if cs.head? = some byteOrderMark then cs.tail else cs
      match decodeLiteral (String.ofList text) with
      | .ok data => return data
      | .error _ => Eval.fail (.invalidString (Host.bytes content).display)
  | v => Eval.breakDown (.notText v.typeName)

end VariantScript.Offered
