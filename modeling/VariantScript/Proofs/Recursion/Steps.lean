import VariantScript.Proofs.Evaluation.Moments

/-!
# One step of the recursion

The evaluation of a term evaluates parts of the term and makes calls; a call goes on with another call
or with the body of a function.  An evaluator is any way to do both.  One step takes a form or a call
apart and leaves everything that it starts to a given evaluator.

The evaluation of scripts is an evaluator that a step does not change.
-/

namespace VariantScript

open Syntax Eval

/-- A way to evaluate terms and to make calls, with the bound on the nesting of calls that is left. -/
structure Evaluator where
  term (bound : Nat) (s : ScopeId) (t : Term) : Eval Value
  call (bound : Nat) (callee : Value) (args : List Value) : Eval Value

/-- The end of the body of a function, by the end of its evaluation. -/
def finishBody (isBlock : Bool) (body : Eval Value) : Eval Value :=
  if isBlock then
    ExceptT.mk do
      match ← body.run with
      | .ok _ => pure (.ok Value.unit)
      | .error (.returned value) => pure (.ok value)
      | other => pure other
  else do Eval.ofExcept (requireResult (← body))

namespace Evaluator

/-- The evaluation of scripts. -/
def ofScripts : Evaluator :=
  ⟨fun n => evaluate (callAt n), callAt⟩

section

variable (e : Evaluator) (n : Nat) (s : ScopeId)

/-- How an evaluator ends what starts at a moment, and the world that it leaves. -/
def run : Moment → Except Stop Value × World
  | .term n s t w => (e.term n s t).run.run w
  | .call n callee args w => (e.call n callee args).run.run w

/-! ## Terms -/

/-- Runs statements, each of them by the evaluator. -/
def bodyStep (result : Value) : List Term → Eval Value
  | [] => return result
  | t :: ts => do
      let v ← e.term n s t
      bodyStep (if t.isExpressionStatement then v else result) ts

/-- Evaluates terms from left to right, each of them by the evaluator. -/
def allStep : List Term → Eval (List Value)
  | [] => return []
  | t :: ts => do
      let v ← e.term n s t
      let vs ← allStep ts
      return v :: vs

/-- Evaluates fields from left to right, their values by the evaluator. -/
def fieldsStep : List Field → Slots → Eval Slots
  | [], slots => return slots
  | .mk _ key value :: rest, slots => do
      let v ← e.term n s value
      let name ← key.decode
      fieldsStep rest (slots.set name v)
  | .broken b :: _, _ => Eval.breakDown b

/-- Evaluates a form, its parts and its call by the evaluator. -/
def formStep : Form → Eval Value
  | .program body => do
      hoist s body
      e.bodyStep n s Value.unit body
  | .block body => do
      let inner ← Eval.openScope (some s) false
      hoist inner body
      e.bodyStep n inner Value.unit body
  | .declaration pattern value => do
      let v ← e.term n s value
      bindPattern s pattern v
      return Value.unit
  | .returnNothing => do
      if (← get).isInCall s then throw (.returned Value.unit) else Eval.fail .illegalReturn
  | .returnValue value => do
      if (← get).isInCall s then
        let v ← e.term n s value
        throw (.returned v)
      else Eval.fail .illegalReturn
  | .throwValue value => do
      let v ← e.term n s value
      Eval.fail (.thrown v)
  | .ifThen condition yes => do
      let c ← e.term n s condition
      if ← Eval.ofExcept (requireTruth "if" c) then e.term n s yes else return Value.unit
  | .ifThenElse condition yes no => do
      let c ← e.term n s condition
      if ← Eval.ofExcept (requireTruth "if" c) then e.term n s yes else e.term n s no
  | .functionDeclaration _ _ _ => return Value.unit
  | .expressionStatement value => e.term n s value
  | .number literal =>
      match Number.readLoose? literal.text.toList with
      | some x => Eval.makeNumber x
      | none => Eval.breakDown (.noNumber literal.text)
  | .string literal => do
      return .string (← decodeString literal.text)
  | .truth flag => return Value.truth flag
  | .reference name => Eval.resolve s name.text
  | .array items => do
      let vs ← e.allStep n s items
      Eval.makeArray vs
  | .record fields => do
      let slots ← e.fieldsStep n s fields []
      Eval.makeRecord slots
  | .arrow params body => Eval.makeClosure ⟨params.patterns, body, s, none, .arrow⟩
  | .functionExpression params body =>
      Eval.makeClosure ⟨params.patterns, body, s, none, .function⟩
  | .call callee args => do
      let f ← e.term n s callee
      let vs ← e.allStep n s args
      e.call n f vs
  | .member receiver name => do
      let v ← e.term n s receiver
      getField v name.text
  | .index receiver position => do
      let v ← e.term n s receiver
      let i ← e.term n s position
      getIndex v i
  | .unary op _ operand => do
      let v ← e.term n s operand
      match op with
      | .not => return Value.truth (! (← Eval.ofExcept (requireTruth "!" v)))
      | .negate => Eval.makeNumber (-(← Eval.ofExcept (requireNumber "unary -" v)))
      | .unknown text => Eval.fail (.unsupportedUnary text)
  | .binary op _ left right => do
      let l ← e.term n s left
      let r ← e.term n s right
      applyBinary op l r
  | .compare op _ left right => do
      let l ← e.term n s left
      let r ← e.term n s right
      return Value.truth (← Eval.ofExcept (applyCompare op l r))
  | .logical op left right => do
      let l ← e.term n s left
      let flag ← Eval.ofExcept (requireTruth op.spelling l)
      if flag = (op = .or) then return l
      else
        let r ← e.term n s right
        let _ ← Eval.ofExcept (requireTruth op.spelling r)
        return r
  | .conditional condition yes no => do
      let c ← e.term n s condition
      if ← Eval.ofExcept (requireTruth "?:" c) then e.term n s yes else e.term n s no
  | .illFormed (.unknownNode label) => Eval.fail (.unknownNode label)
  | .illFormed (.unhandledToken type text) => Eval.fail (.unhandledToken type text)
  | .illFormed (.wrongShape _ b) => Eval.breakDown b
  | .illFormed (.wrongFunction _) => return Value.unit

/-! ## Calls -/

/-- Enters a function with arguments; its body is left to the evaluator. -/
def enterStep (f : Closure) (args : List Value) : Eval Value := do
  if args.length ≠ f.params.length then
    Eval.fail (.arity (f.label "Function") f.params.length args.length)
  else
    let s ← Eval.openScope (some f.scope) true
    bindItems s f.params args
    finishBody f.body.isBlock (e.term n s f.body)

/-- Makes a call.  A variant goes on with the call of a branch, and the body of a function with one
nested call less. -/
def callStep : Nat → Value → List Value → Eval Value
  | 0, .closure _ _, _ => throw .tooDeep
  | n + 1, .closure _ f, args => e.enterStep n f args
  | n, .variant _ tag payload, args =>
      match Value.dispatch tag payload args with
      | .ok (branch, rest) => e.call n branch rest
      | .error error => Eval.fail (.dispatch error)
  | _, .builtin operation, args => callBuiltin operation args
  | _, other, _ => Eval.fail (.notAFunction other)

/-- The evaluator that takes a term or a call apart and leaves what it starts to another one. -/
def step : Evaluator where
  term n s t := Eval.locate t.pos (e.formStep n s t.form)
  call := e.callStep

end

/-! ## The evaluation of scripts -/

theorem run_ofScripts (a : Moment) : ofScripts.run a = a.run := by
  cases a <;> rfl

section

variable (n : Nat) (s : ScopeId)

theorem evaluateBody_eq (result : Value) (ts : List Term) :
    evaluateBody (callAt n) s result ts = ofScripts.bodyStep n s result ts := by
  induction ts generalizing result with
  | nil => rw [evaluateBody, bodyStep]
  | cons t ts ih =>
      rw [evaluateBody, bodyStep]
      exact bind_congr fun v => ih _

theorem evaluateAll_eq (ts : List Term) :
    evaluateAll (callAt n) s ts = ofScripts.allStep n s ts := by
  induction ts with
  | nil => rw [evaluateAll, allStep]
  | cons t ts ih =>
      rw [evaluateAll, allStep, ih]
      rfl

theorem evaluateFields_eq (fs : List Field) (slots : Slots) :
    evaluateFields (callAt n) s fs slots = ofScripts.fieldsStep n s fs slots := by
  induction fs generalizing slots with
  | nil => rw [evaluateFields, fieldsStep]
  | cons f fs ih =>
      cases f with
      | mk pos key value =>
          rw [evaluateFields, fieldsStep]
          exact bind_congr fun v => bind_congr fun name => ih _
      | broken b => rw [evaluateFields, fieldsStep]

theorem evaluateForm_eq (form : Form) :
    evaluateForm (callAt n) s form = ofScripts.formStep n s form := by
  cases form with
  | program body =>
      rw [evaluateForm, formStep]
      exact bind_congr fun _ => evaluateBody_eq n s _ body
  | block body =>
      rw [evaluateForm, formStep]
      exact bind_congr fun inner => bind_congr fun _ => evaluateBody_eq n inner _ body
  | array items =>
      rw [evaluateForm, formStep, evaluateAll_eq]
  | record fields =>
      rw [evaluateForm, formStep, evaluateFields_eq]
  | call callee args =>
      rw [evaluateForm, formStep]
      apply bind_congr
      intro f
      rw [evaluateAll_eq]
      rfl
  | illFormed problem =>
      cases problem <;> rw [evaluateForm, formStep]
  | _ =>
      rw [evaluateForm, formStep]
      try rfl

theorem callAt_eq (callee : Value) (args : List Value) :
    callAt n callee args = ofScripts.callStep n callee args := by
  cases callee with
  | closure i f =>
      cases n with
      | zero => rw [callAt_zero_closure, callStep]
      | succ n => rw [callAt_succ_closure, callStep]; rfl
  | variant i tag payload =>
      rw [callAt_variant]
      cases n <;> rw [callStep] <;> rfl
  | builtin operation =>
      rw [callAt_builtin]
      cases n <;> rw [callStep]
  | number | string | array | record | foreign =>
      cases n <;> unfold callAt applyValue <;> simp only [Value.resolve, callStep]

end

/-- The evaluation of scripts leaves what it starts to itself. -/
theorem step_ofScripts : ofScripts.step = ofScripts := by
  have hterm : ofScripts.step.term = ofScripts.term := by
    funext n s t
    obtain ⟨pos, form⟩ := t
    show Eval.locate pos (ofScripts.formStep n s form) = evaluate (callAt n) s (.node pos form)
    rw [evaluate, evaluateForm_eq]
  have hcall : ofScripts.step.call = ofScripts.call := by
    funext n callee args
    exact (callAt_eq n callee args).symm
  show Evaluator.mk ofScripts.step.term ofScripts.step.call = ofScripts
  rw [hterm, hcall]

end Evaluator

end VariantScript
