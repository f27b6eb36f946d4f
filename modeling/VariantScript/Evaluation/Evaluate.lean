import VariantScript.Evaluation.Binding
import VariantScript.Evaluation.Operation

/-!
# Evaluating terms

Evaluation follows the term; what a call does is handed in, so that nesting of calls is the only
recursion that the term does not bound.  `callAt n` allows calls of script functions to nest `n` deep
and stops beyond.

Functions declared in a body are defined before its first statement runs.  The value of a body is
that of the last expression statement in it.
-/

namespace VariantScript

open Syntax

/-- Defines the functions that a body declares, in order. -/
def hoist (s : ScopeId) : List Term → Eval Unit
  | [] => pure ()
  | .node _ (.functionDeclaration name params body) :: rest => do
      let f ← Eval.makeClosure ⟨params.patterns, body, s, some name.text, .function⟩
      Eval.define s name.text f
      hoist s rest
  | .node _ (.illFormed (.wrongFunction b)) :: _ => Eval.breakDown b
  | _ :: rest => hoist s rest

section

variable (call : Value → List Value → Eval Value)

mutual
/-- Evaluates a term in a scope. -/
def evaluate (s : ScopeId) : Term → Eval Value
  | .node pos form => Eval.locate pos (evaluateForm s form)

/-- Evaluates a form in a scope. -/
def evaluateForm (s : ScopeId) : Form → Eval Value
  | .program body => do
      hoist s body
      evaluateBody s Value.unit body
  | .block body => do
      let inner ← Eval.openScope (some s) false
      hoist inner body
      evaluateBody inner Value.unit body
  | .declaration pattern value => do
      let v ← evaluate s value
      bindPattern s pattern v
      return Value.unit
  | .returnNothing => do
      if (← get).isInCall s then throw (.returned Value.unit) else Eval.fail .illegalReturn
  | .returnValue value => do
      -- Refused before the value is evaluated.
      if (← get).isInCall s then
        let v ← evaluate s value
        throw (.returned v)
      else Eval.fail .illegalReturn
  | .throwValue value => do
      let v ← evaluate s value
      Eval.fail (.thrown v)
  | .ifThen condition yes => do
      let c ← evaluate s condition
      if ← Eval.ofExcept (requireTruth "if" c) then evaluate s yes else return Value.unit
  | .ifThenElse condition yes no => do
      let c ← evaluate s condition
      if ← Eval.ofExcept (requireTruth "if" c) then evaluate s yes else evaluate s no
  | .functionDeclaration _ _ _ => return Value.unit
  | .expressionStatement value => evaluate s value
  | .number literal =>
      match Number.readLoose? literal.text.toList with
      | some x => Eval.makeNumber x
      | none => Eval.breakDown (.noNumber literal.text)
  | .string literal => do
      return .string (← decodeString literal.text)
  | .truth flag => return Value.truth flag
  | .reference name => Eval.resolve s name.text
  | .array items => do
      let vs ← evaluateAll s items
      Eval.makeArray vs
  | .record fields => do
      let slots ← evaluateFields s fields []
      Eval.makeRecord slots
  | .arrow params body => Eval.makeClosure ⟨params.patterns, body, s, none, .arrow⟩
  | .functionExpression params body =>
      Eval.makeClosure ⟨params.patterns, body, s, none, .function⟩
  | .call callee args => do
      let f ← evaluate s callee
      let vs ← evaluateAll s args
      call f vs
  | .member receiver name => do
      let v ← evaluate s receiver
      getField v name.text
  | .index receiver position => do
      let v ← evaluate s receiver
      let i ← evaluate s position
      getIndex v i
  | .unary op _ operand => do
      let v ← evaluate s operand
      match op with
      | .not => return Value.truth (! (← Eval.ofExcept (requireTruth "!" v)))
      | .negate => Eval.makeNumber (-(← Eval.ofExcept (requireNumber "unary -" v)))
      | .unknown text => Eval.fail (.unsupportedUnary text)
  | .binary op _ left right => do
      let l ← evaluate s left
      let r ← evaluate s right
      applyBinary op l r
  | .compare op _ left right => do
      let l ← evaluate s left
      let r ← evaluate s right
      return Value.truth (← Eval.ofExcept (applyCompare op l r))
  | .logical op left right => do
      let l ← evaluate s left
      let flag ← Eval.ofExcept (requireTruth op.spelling l)
      -- A true left operand decides `||`, a false one `&&`.
      if flag = (op = .or) then return l
      else
        let r ← evaluate s right
        let _ ← Eval.ofExcept (requireTruth op.spelling r)
        return r
  | .conditional condition yes no => do
      let c ← evaluate s condition
      if ← Eval.ofExcept (requireTruth "?:" c) then evaluate s yes else evaluate s no
  | .illFormed (.unknownNode label) => Eval.fail (.unknownNode label)
  | .illFormed (.unhandledToken type text) => Eval.fail (.unhandledToken type text)
  | .illFormed (.wrongShape _ b) => Eval.breakDown b
  | .illFormed (.wrongFunction _) => return Value.unit

/-- Runs the statements of a body; `result` is the value of the last expression statement before
them. -/
def evaluateBody (s : ScopeId) (result : Value) : List Term → Eval Value
  | [] => return result
  | t :: ts => do
      let v ← evaluate s t
      evaluateBody s (if t.isExpressionStatement then v else result) ts

/-- Evaluates terms from left to right. -/
def evaluateAll (s : ScopeId) : List Term → Eval (List Value)
  | [] => return []
  | t :: ts => do
      let v ← evaluate s t
      let vs ← evaluateAll s ts
      return v :: vs

/-- Evaluates fields from left to right onto the fields before them.  The value of a field is
evaluated before its key is decoded. -/
def evaluateFields (s : ScopeId) : List Field → Slots → Eval Slots
  | [], slots => return slots
  | .mk _ key value :: rest, slots => do
      let v ← evaluate s value
      let name ← key.decode
      evaluateFields s rest (slots.set name v)
  | .broken b :: _, _ => Eval.breakDown b
end

/-- Runs the body of a function in the scope of its call.  A block gives what it returns, or unit; an
expression has to give a value of the language. -/
def runBody (s : ScopeId) (body : Term) : Eval Value :=
  if body.isBlock then
    ExceptT.mk do
      match ← (evaluate call s body).run with
      -- What the last statement gave does not leave the block.
      | .ok _ => pure (.ok Value.unit)
      | .error (.returned value) => pure (.ok value)
      | other => pure other
  else do Eval.ofExcept (requireResult (← evaluate call s body))

/-- Enters a function with arguments. -/
def enter (f : Closure) (args : List Value) : Eval Value := do
  if args.length ≠ f.params.length then
    Eval.fail (.arity (f.label "Function") f.params.length args.length)
  else
    let s ← Eval.openScope (some f.scope) true
    bindItems s f.params args
    runBody call s f.body

end

/-- Calls a value, with a way to enter functions. -/
def applyValue (enterFunction : Closure → List Value → Eval Value) (callee : Value)
    (args : List Value) : Eval Value :=
  match callee.resolve args with
  | .error e => Eval.fail (.dispatch e)
  | .ok (.closure _ f, args) => enterFunction f args
  | .ok (.builtin operation, args) => callBuiltin operation args
  | .ok (other, _) => Eval.fail (.notAFunction other)

/-- Calls a value, allowing calls of script functions to nest to a depth. -/
def callAt : Nat → Value → List Value → Eval Value
  | 0 => applyValue fun _ _ => throw .tooDeep
  | n + 1 => applyValue (enter (callAt n))

end VariantScript
