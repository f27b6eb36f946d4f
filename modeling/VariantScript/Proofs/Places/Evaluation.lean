import VariantScript.Proofs.Evaluation.Growth
import VariantScript.Proofs.Evaluation.Remainders
import VariantScript.Proofs.Places.Operations

/-!
# Evaluation does not depend on places

A term without its places is evaluated, in the world without places, to the same result and the same
world without places.  Calls are compared at the same depth of nesting, so a run stops for its depth
either with places or without them, or in neither case.
-/

namespace VariantScript

open Syntax Eval

/-! ## Declared functions -/

@[simp] theorem Syntax.Term.declared?_unplaced (t : Term) : t.unplaced.declared? = t.declared? := by
  obtain ⟨pos, form⟩ := t
  cases form <;> rfl

theorem forgets_hoist (s : ScopeId) (body : List Term) :
    Forgets id (hoist s body) (hoist s (body.map Term.unplaced)) := by
  induction body with
  | nil => exact forgets_pure id ()
  | cons t rest ih =>
      obtain ⟨pos, form⟩ := t
      cases form with
      | functionDeclaration name params body =>
          exact (forgets_makeClosure ⟨params.patterns, body, s, some name.text, .function⟩).bind
            fun f => (forgets_define s name.text f).bind fun _ => ih
      | illFormed problem =>
          cases problem with
          | wrongFunction b => exact forgets_breakDown b
          | _ => exact ih
      | _ => exact ih

/-! ## Terms -/

section

variable {call : Value → List Value → Eval Value}

/-- Calls that do not depend on places. -/
def CallsForget (call : Value → List Value → Eval Value) : Prop :=
  ∀ callee args, Forgets Value.unplaced (call callee args)
    (call callee.unplaced (args.map Value.unplaced))

/-- What goes on behind a condition. -/
theorem forgets_truth (context : String) (v : Value) {k k' : Bool → Eval Value}
    (hk : ∀ flag, Forgets Value.unplaced (k flag) (k' flag)) :
    Forgets Value.unplaced (Eval.ofExcept (requireTruth context v) >>= k)
      (Eval.ofExcept (requireTruth context v.unplaced) >>= k') :=
  (forgets_ofExcept (requireTruth_unplaced context v)).bind hk

mutual

theorem forgets_evaluate (hcall : CallsForget call) (s : ScopeId) (t : Term) :
    Forgets Value.unplaced (evaluate call s t) (evaluate call s t.unplaced) := by
  match t with
  | .node pos form => exact (forgets_evaluateForm hcall s form).locate pos

theorem forgets_evaluateForm (hcall : CallsForget call) (s : ScopeId) (form : Form) :
    Forgets Value.unplaced (evaluateForm call s form) (evaluateForm call s form.unplaced) := by
  match form with
  | .program body =>
      simp only [Form.unplaced, Term.unplacedAll_eq, evaluateForm]
      exact (forgets_hoist s body).bind fun _ =>
        forgets_evaluateBody hcall s Value.unit body
  | .block body =>
      simp only [Form.unplaced, Term.unplacedAll_eq, evaluateForm]
      exact (forgets_openScope (some s) false).bind fun inner =>
        (forgets_hoist inner body).bind fun _ =>
          forgets_evaluateBody hcall inner Value.unit body
  | .declaration pattern value =>
      exact (forgets_evaluate hcall s value).bind fun v =>
        (forgets_bindPattern s pattern v).bind fun _ => forgets_pure Value.unplaced Value.unit
  | .returnNothing =>
      refine Forgets.get_bind fun w => ?_
      rw [World.isInCall_unplaced]
      exact .ite Iff.rfl (fun _ => forgets_throw (.returned Value.unit)) fun _ =>
        forgets_fail .illegalReturn
  | .returnValue value =>
      refine Forgets.get_bind fun w => ?_
      rw [World.isInCall_unplaced]
      exact .ite Iff.rfl
        (fun _ => (forgets_evaluate hcall s value).bind fun v => forgets_throw (.returned v))
        fun _ => forgets_fail .illegalReturn
  | .throwValue value =>
      exact (forgets_evaluate hcall s value).bind fun v => forgets_fail (.thrown v)
  | .ifThen condition yes =>
      exact (forgets_evaluate hcall s condition).bind fun c =>
        forgets_truth "if" c fun _ =>
          .ite Iff.rfl (fun _ => forgets_evaluate hcall s yes) fun _ =>
            forgets_pure Value.unplaced Value.unit
  | .ifThenElse condition yes no =>
      exact (forgets_evaluate hcall s condition).bind fun c =>
        forgets_truth "if" c fun _ =>
          .ite Iff.rfl (fun _ => forgets_evaluate hcall s yes) fun _ =>
            forgets_evaluate hcall s no
  | .functionDeclaration _ _ _ => exact forgets_pure Value.unplaced Value.unit
  | .expressionStatement value => exact forgets_evaluate hcall s value
  | .number literal =>
      simp only [Form.unplaced, evaluateForm, Spelling.text_unplaced]
      cases Number.readLoose? literal.text.toList with
      | some x => exact forgets_makeNumber x
      | none => exact forgets_breakDown (.noNumber literal.text)
  | .string literal =>
      exact (forgets_decodeString literal.text).bind fun text =>
        forgets_pure Value.unplaced (.string text)
  | .truth flag =>
      have hpure := forgets_pure Value.unplaced (.truth flag)
      rw [Value.unplaced_truth] at hpure
      exact hpure
  | .reference name => exact forgets_resolve s name.text
  | .array items =>
      simp only [Form.unplaced, Term.unplacedAll_eq, evaluateForm]
      exact (forgets_evaluateAll hcall s items).bind fun vs => forgets_makeArray vs
  | .record fields =>
      simp only [Form.unplaced, Field.unplacedAll_eq, evaluateForm]
      exact (forgets_evaluateFields hcall s fields []).bind fun slots => forgets_makeRecord slots
  | .arrow params body => exact forgets_makeClosure ⟨params.patterns, body, s, none, .arrow⟩
  | .functionExpression params body =>
      exact forgets_makeClosure ⟨params.patterns, body, s, none, .function⟩
  | .call callee args =>
      simp only [Form.unplaced, Term.unplacedAll_eq, evaluateForm]
      exact (forgets_evaluate hcall s callee).bind fun f =>
        (forgets_evaluateAll hcall s args).bind fun vs => hcall f vs
  | .member receiver name =>
      exact (forgets_evaluate hcall s receiver).bind fun v => forgets_getField v name.text
  | .index receiver position =>
      exact (forgets_evaluate hcall s receiver).bind fun v =>
        (forgets_evaluate hcall s position).bind fun i => forgets_getIndex v i
  | .unary op _ operand =>
      refine (forgets_evaluate hcall s operand).bind fun v => ?_
      cases op with
      | not =>
          refine forgets_truth "!" v fun flag => ?_
          have hpure := forgets_pure Value.unplaced (.truth (! flag))
          rw [Value.unplaced_truth] at hpure
          exact hpure
      | negate =>
          exact (forgets_ofExcept (requireNumber_unplaced "unary -" v)).bind fun x =>
            forgets_makeNumber (-x)
      | unknown text => exact forgets_fail (.unsupportedUnary text)
  | .binary op _ left right =>
      exact (forgets_evaluate hcall s left).bind fun l =>
        (forgets_evaluate hcall s right).bind fun r => forgets_applyBinary op l r
  | .compare op _ left right =>
      refine (forgets_evaluate hcall s left).bind fun l =>
        (forgets_evaluate hcall s right).bind fun r => ?_
      refine (forgets_ofExcept (applyCompare_unplaced op l r)).bind fun flag => ?_
      have hpure := forgets_pure Value.unplaced (.truth flag)
      rw [Value.unplaced_truth] at hpure
      exact hpure
  | .logical op left right =>
      refine (forgets_evaluate hcall s left).bind fun l => ?_
      refine forgets_truth op.spelling l fun flag => ?_
      refine .ite Iff.rfl (fun _ => forgets_pure Value.unplaced l) fun _ => ?_
      exact (forgets_evaluate hcall s right).bind fun r =>
        forgets_truth op.spelling r fun _ => forgets_pure Value.unplaced r
  | .conditional condition yes no =>
      exact (forgets_evaluate hcall s condition).bind fun c =>
        forgets_truth "?:" c fun _ =>
          .ite Iff.rfl (fun _ => forgets_evaluate hcall s yes) fun _ =>
            forgets_evaluate hcall s no
  | .illFormed (.unknownNode label) => exact forgets_fail (.unknownNode label)
  | .illFormed (.unhandledToken type text) => exact forgets_fail (.unhandledToken type text)
  | .illFormed (.wrongShape _ b) => exact forgets_breakDown b
  | .illFormed (.wrongFunction _) => exact forgets_pure Value.unplaced Value.unit

theorem forgets_evaluateBody (hcall : CallsForget call) (s : ScopeId) (result : Value)
    (ts : List Term) :
    Forgets Value.unplaced (evaluateBody call s result ts)
      (evaluateBody call s result.unplaced (ts.map Term.unplaced)) := by
  match ts with
  | [] => exact forgets_pure Value.unplaced result
  | t :: ts =>
      refine (forgets_evaluate hcall s t).bind fun v => ?_
      rw [Term.isExpressionStatement_unplaced, ← apply_ite Value.unplaced]
      exact forgets_evaluateBody hcall s _ ts

theorem forgets_evaluateAll (hcall : CallsForget call) (s : ScopeId) (ts : List Term) :
    Forgets (List.map Value.unplaced) (evaluateAll call s ts)
      (evaluateAll call s (ts.map Term.unplaced)) := by
  match ts with
  | [] => exact forgets_pure (List.map Value.unplaced) []
  | t :: ts =>
      exact (forgets_evaluate hcall s t).bind fun v =>
        (forgets_evaluateAll hcall s ts).bind fun vs =>
          forgets_pure (List.map Value.unplaced) (v :: vs)

theorem forgets_evaluateFields (hcall : CallsForget call) (s : ScopeId) (fs : List Field)
    (slots : Slots) :
    Forgets Slots.unplaced (evaluateFields call s fs slots)
      (evaluateFields call s (fs.map Field.unplaced) slots.unplaced) := by
  match fs with
  | [] => exact forgets_pure Slots.unplaced slots
  | .broken b :: _ => exact forgets_breakDown b
  | .mk _ key value :: rest =>
      refine (forgets_evaluate hcall s value).bind fun v =>
        (forgets_decode key).bind fun name => ?_
      rw [Slots.set_unplaced]
      exact forgets_evaluateFields hcall s rest (slots.set name v)

end

/-! ## Calls -/

theorem forgets_runBody (hcall : CallsForget call) (s : ScopeId) (body : Term) :
    Forgets Value.unplaced (runBody call s body) (runBody call s body.unplaced) := by
  have hevaluate := forgets_evaluate hcall s body
  by_cases hblock : body.isBlock = true
  · intro w
    have hblock' : body.unplaced.isBlock = true := by rwa [Term.isBlock_unplaced]
    rw [run_runBody_block hblock', run_runBody_block hblock, hevaluate w]
    rcases (evaluate call s body).run.run w with ⟨(_ | _ | _ | _) | _, w'⟩ <;> rfl
  · unfold runBody
    rw [Term.isBlock_unplaced, if_neg hblock, if_neg hblock]
    exact hevaluate.bind fun v => forgets_ofExcept (requireResult_unplaced v)

theorem forgets_enter (hcall : CallsForget call) (f : Closure) (args : List Value) :
    Forgets Value.unplaced (enter call f args)
      (enter call f.unplaced (args.map Value.unplaced)) := by
  have harity := forgets_fail (f := Value.unplaced)
    (.arity (f.label "Function") f.params.length args.length)
  simp only [enter, Closure.params_unplaced, Closure.label_unplaced, List.length_map]
  refine .ite Iff.rfl (fun _ => harity) fun _ => ?_
  exact (forgets_openScope (some f.scope) true).bind fun s =>
    (forgets_bindItems s f.params args).bind fun _ => forgets_runBody hcall s f.body

end

theorem forgets_applyValue {enterFunction : Closure → List Value → Eval Value}
    (henter : ∀ f args, Forgets Value.unplaced (enterFunction f args)
      (enterFunction f.unplaced (args.map Value.unplaced))) :
    CallsForget (applyValue enterFunction) := by
  intro callee args
  unfold applyValue
  rw [Value.resolve_unplaced]
  cases callee.resolve args with
  | error e => exact forgets_fail (.dispatch e)
  | ok c =>
      obtain ⟨target, args⟩ := c
      have hother := forgets_fail (f := Value.unplaced) (.notAFunction target)
      cases target with
      | closure id f => exact henter f args
      | builtin operation => exact forgets_callBuiltin operation args
      | _ => exact hother

/-- Calls at every depth of nesting do not depend on places. -/
theorem callsForget (n : Nat) : CallsForget (callAt n) := by
  induction n with
  | zero => exact forgets_applyValue fun _ _ => forgets_throw .tooDeep
  | succ n ih => exact forgets_applyValue (forgets_enter ih)

end VariantScript
