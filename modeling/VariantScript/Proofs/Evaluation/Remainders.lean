import VariantScript.Evaluation.Evaluate
import VariantScript.Proofs.Evaluation.Operations

/-!
# Remainders that do not exist

An evaluation lacks a remainder if one of the evaluations that it consists of does, after the ones
before it gave their values; in the end it comes to a term that takes the remainder of an infinite
number by a number that is no zero.  Such an evaluation breaks down, since nothing in a script
catches a breakdown.
-/

namespace VariantScript

open Syntax Eval

/-! ## Parts of forms -/

/-- The part of a form that is evaluated first, on its own. -/
def Syntax.Form.first? : Form → Option Term
  | .declaration _ t | .returnValue t | .throwValue t | .ifThen t _ | .ifThenElse t _ _
  | .expressionStatement t | .call t _ | .member t _ | .index t _ | .unary _ _ t | .binary _ _ t _
  | .compare _ _ t _ | .logical _ t _ | .conditional t _ _ => some t
  | _ => none

/-- The part of a form that is evaluated next, once the first one gave a value. -/
def Syntax.Form.next? (v : Value) : Form → Option Term
  | .ifThen _ yes => if v.truth? = some true then some yes else none
  | .ifThenElse _ yes no | .conditional _ yes no =>
      v.truth?.map fun flag => if flag then yes else no
  | .index _ t | .binary _ _ _ t | .compare _ _ _ t => some t
  | .logical op _ t => if v.truth? = some (! decide (op = .or)) then some t else none
  | _ => none

section

variable {call : Value → List Value → Eval Value} {s : ScopeId} {form : Form} {t t' : Term}
  {w w' : World} {v : Value}

theorem Syntax.Form.sizeOf_first (hfirst : form.first? = some t) : sizeOf t < sizeOf form := by
  cases form <;> cases hfirst <;> simp <;> omega

theorem Syntax.Form.sizeOf_next (hnext : form.next? v = some t) : sizeOf t < sizeOf form := by
  cases form <;> simp only [next?, reduceCtorEq] at hnext
  case ifThen | logical =>
    split at hnext <;> cases hnext
    simp only [ifThen.sizeOf_spec, logical.sizeOf_spec]
    omega
  case ifThenElse | conditional =>
    obtain ⟨flag, -, rfl⟩ := Option.map_eq_some_iff.1 hnext
    cases flag with
    | true | false =>
        simp only [reduceIte, Bool.false_eq_true, ifThenElse.sizeOf_spec, conditional.sizeOf_spec]
        omega
  all_goals
    cases hnext
    simp only [index.sizeOf_spec, binary.sizeOf_spec, compare.sizeOf_spec]
    omega

theorem breaks_first (hfirst : form.first? = some t)
    (hreturn : ∀ value, form = .returnValue value → w.isInCall s = true)
    (h : Breaks (evaluate call s t) w) : Breaks (evaluateForm call s form) w := by
  cases form <;> cases hfirst <;> unfold evaluateForm
  -- A `return` outside of calls is refused before its value is evaluated.
  case returnValue =>
    have hinside : Gives get w w w := rfl
    apply hinside.breaks
    rw [if_pos (hreturn _ rfl)]
    exact h.bind _
  all_goals first
    | exact h
    | exact h.bind _

theorem gives_requireTruth {flag : Bool} (hv : v.truth? = some flag) (context : String)
    (w : World) :
    Gives (ofExcept (requireTruth context v)) w flag w := by
  unfold requireTruth
  rw [hv]
  rfl

theorem breaks_next (hfirst : form.first? = some t) (ht : Gives (evaluate call s t) w v w')
    (hnext : form.next? v = some t') (h : Breaks (evaluate call s t') w') :
    Breaks (evaluateForm call s form) w := by
  cases form <;> cases hfirst <;> simp only [Form.next?, reduceCtorEq] at hnext <;>
    unfold evaluateForm <;> apply ht.breaks
  case ifThen =>
    split at hnext <;> cases hnext
    rename_i hv
    exact (gives_requireTruth hv "if" w').breaks h
  case ifThenElse =>
    obtain ⟨flag, hv, rfl⟩ := Option.map_eq_some_iff.1 hnext
    apply (gives_requireTruth hv "if" w').breaks
    cases flag <;> exact h
  case conditional =>
    obtain ⟨flag, hv, rfl⟩ := Option.map_eq_some_iff.1 hnext
    apply (gives_requireTruth hv "?:" w').breaks
    cases flag <;> exact h
  case logical op _ =>
    split at hnext <;> cases hnext
    rename_i hv
    apply (gives_requireTruth hv op.spelling w').breaks
    rw [if_neg (by simp)]
    exact h.bind _
  all_goals
    cases hnext
    exact h.bind _

/-- What a call ends in whose body is a block. -/
def taken : Except Stop Value → Except Stop Value
  | .ok _ => .ok Value.unit
  | .error (.returned value) => .ok value
  | other => other

theorem run_runBody_block {s : ScopeId} {body : Term} (h : body.isBlock = true) (w : World) :
    (runBody call s body).run.run w =
      (taken ((evaluate call s body).run.run w).1, ((evaluate call s body).run.run w).2) := by
  have hbind : (runBody call s body).run.run w =
      StateT.run (match ((evaluate call s body).run.run w).1 with
        | .ok _ => pure (.ok Value.unit)
        | .error (.returned value) => pure (.ok value)
        | other => pure other) ((evaluate call s body).run.run w).2 := by
    unfold runBody
    rw [if_pos h]
    rfl
  rw [hbind]
  rcases ((evaluate call s body).run.run w).1 with (_ | _ | _ | _) | _ <;> rfl

theorem breaks_runBody {body : Term} (h : Breaks (evaluate call s body) w) :
    Breaks (runBody call s body) w := by
  by_cases hblock : body.isBlock = true
  · unfold Breaks at h ⊢
    rw [run_runBody_block hblock, h]
    rfl
  · unfold runBody
    rw [if_neg hblock]
    exact h.bind _

end

/-! ## Evaluations -/

mutual

/-- The evaluation of a term in a scope of a world, with calls that nest `n` deep at most, lacks a
remainder. -/
inductive LacksRemainder : Nat → ScopeId → Term → World → Prop where
  | first {n : Nat} {s : ScopeId} {pos : Option Position} {form : Form} {t : Term} {w : World}
      (hfirst : form.first? = some t)
      (hreturn : ∀ value, form = .returnValue value → w.isInCall s = true)
      (h : LacksRemainder n s t w) : LacksRemainder n s (.node pos form) w
  | next {n : Nat} {s : ScopeId} {pos : Option Position} {form : Form} {t t' : Term} {v : Value}
      {w w' : World} (hfirst : form.first? = some t)
      (ht : Gives (evaluate (callAt n) s t) w v w') (hnext : form.next? v = some t')
      (h : LacksRemainder n s t' w') : LacksRemainder n s (.node pos form) w
  | remainder {n : Nat} {s : ScopeId} {pos : Option Position} {opPos : Position}
      {left right : Term} {i j : Identity} {x y : Float} {w w' w'' : World}
      (hleft : Gives (evaluate (callAt n) s left) w (.number i x) w')
      (hright : Gives (evaluate (callAt n) s right) w' (.number j y) w'')
      (h : Number.NoRemainder x y) :
      LacksRemainder n s (.node pos (.binary .remainder opPos left right)) w
  | program {n : Nat} {s : ScopeId} {pos : Option Position} {body : List Term} {w w' : World}
      (hhoist : Gives (hoist s body) w () w') (h : AnyLacksRemainder n s body w') :
      LacksRemainder n s (.node pos (.program body)) w
  | block {n : Nat} {s inner : ScopeId} {pos : Option Position} {body : List Term}
      {w w' w'' : World} (hscope : Gives (openScope (some s) false) w inner w')
      (hhoist : Gives (hoist inner body) w' () w'') (h : AnyLacksRemainder n inner body w'') :
      LacksRemainder n s (.node pos (.block body)) w
  | array {n : Nat} {s : ScopeId} {pos : Option Position} {items : List Term} {w : World}
      (h : AnyLacksRemainder n s items w) : LacksRemainder n s (.node pos (.array items)) w
  | record {n : Nat} {s : ScopeId} {pos : Option Position} {fields : List Field} {w : World}
      (h : FieldLacksRemainder n s fields w) : LacksRemainder n s (.node pos (.record fields)) w
  | arguments {n : Nat} {s : ScopeId} {pos : Option Position} {callee : Term} {args : List Term}
      {f : Value} {w w' : World} (hcallee : Gives (evaluate (callAt n) s callee) w f w')
      (h : AnyLacksRemainder n s args w') : LacksRemainder n s (.node pos (.call callee args)) w
  | call {n : Nat} {s : ScopeId} {pos : Option Position} {callee : Term} {args : List Term}
      {f : Value} {vs : List Value} {w w' w'' : World}
      (hcallee : Gives (evaluate (callAt n) s callee) w f w')
      (hargs : Gives (evaluateAll (callAt n) s args) w' vs w'')
      (h : CallLacksRemainder n f vs w'') : LacksRemainder n s (.node pos (.call callee args)) w

/-- The evaluation of terms one after the other lacks a remainder. -/
inductive AnyLacksRemainder : Nat → ScopeId → List Term → World → Prop where
  | head {n : Nat} {s : ScopeId} {t : Term} {ts : List Term} {w : World}
      (h : LacksRemainder n s t w) : AnyLacksRemainder n s (t :: ts) w
  | tail {n : Nat} {s : ScopeId} {t : Term} {ts : List Term} {v : Value} {w w' : World}
      (ht : Gives (evaluate (callAt n) s t) w v w') (h : AnyLacksRemainder n s ts w') :
      AnyLacksRemainder n s (t :: ts) w

/-- The evaluation of fields one after the other lacks a remainder. -/
inductive FieldLacksRemainder : Nat → ScopeId → List Field → World → Prop where
  | head {n : Nat} {s : ScopeId} {pos : Option Position} {key : Key} {value : Term}
      {fs : List Field} {w : World} (h : LacksRemainder n s value w) :
      FieldLacksRemainder n s (.mk pos key value :: fs) w
  | tail {n : Nat} {s : ScopeId} {pos : Option Position} {key : Key} {value : Term}
      {fs : List Field} {v : Value} {name : String} {w w' w'' : World}
      (hvalue : Gives (evaluate (callAt n) s value) w v w') (hkey : Gives key.decode w' name w'')
      (h : FieldLacksRemainder n s fs w'') : FieldLacksRemainder n s (.mk pos key value :: fs) w

/-- A call lacks a remainder. -/
inductive CallLacksRemainder : Nat → Value → List Value → World → Prop where
  | body {n : Nat} {callee : Value} {args rest : List Value} {i : Identity} {f : Closure}
      {s : ScopeId} {w w' w'' : World} (hcallee : callee.resolve args = .ok (.closure i f, rest))
      (hlength : rest.length = f.params.length)
      (hscope : Gives (openScope (some f.scope) true) w s w')
      (hparams : Gives (bindItems s f.params rest) w' () w'') (h : LacksRemainder n s f.body w'') :
      CallLacksRemainder (n + 1) callee args w

end

mutual

theorem LacksRemainder.breaks {n : Nat} {s : ScopeId} {t : Term} {w : World}
    (h : LacksRemainder n s t w) : Breaks (evaluate (callAt n) s t) w := by
  match t, h with
  | .node pos form, h =>
      unfold evaluate
      refine Breaks.locate ?_ pos
      match form, h with
      | _, .first hfirst hreturn h =>
          have hlt := Form.sizeOf_first hfirst
          exact breaks_first hfirst hreturn h.breaks
      | _, .next hfirst ht hnext h =>
          have hlt := Form.sizeOf_next hnext
          exact breaks_next hfirst ht hnext h.breaks
      | _, .remainder hleft hright h =>
          unfold evaluateForm
          exact hleft.breaks (hright.breaks (breaks_applyBinary h _ _ _))
      | _, .program hhoist h =>
          unfold evaluateForm
          exact hhoist.breaks (h.breaks_body _)
      | _, .block hscope hhoist h =>
          unfold evaluateForm
          exact hscope.breaks (hhoist.breaks (h.breaks_body _))
      | _, .array h =>
          unfold evaluateForm
          exact h.breaks_all.bind _
      | _, .record h =>
          unfold evaluateForm
          exact (h.breaks []).bind _
      | _, .arguments hcallee h =>
          unfold evaluateForm
          exact hcallee.breaks (h.breaks_all.bind _)
      | _, .call hcallee hargs h =>
          unfold evaluateForm
          exact hcallee.breaks (hargs.breaks h.breaks)
-- The body of a called function is no part of the term, but fewer calls may nest in it.
termination_by (n, sizeOf t)

theorem AnyLacksRemainder.breaks_body {n : Nat} {s : ScopeId} {ts : List Term} {w : World}
    (h : AnyLacksRemainder n s ts w) (result : Value) :
    Breaks (evaluateBody (callAt n) s result ts) w := by
  match ts, h with
  | _, .head h =>
      unfold evaluateBody
      exact h.breaks.bind _
  | _, .tail ht h =>
      unfold evaluateBody
      exact ht.breaks (h.breaks_body _)
termination_by (n, sizeOf ts)

theorem AnyLacksRemainder.breaks_all {n : Nat} {s : ScopeId} {ts : List Term} {w : World}
    (h : AnyLacksRemainder n s ts w) : Breaks (evaluateAll (callAt n) s ts) w := by
  match ts, h with
  | _, .head h =>
      unfold evaluateAll
      exact h.breaks.bind _
  | _, .tail ht h =>
      unfold evaluateAll
      exact ht.breaks (h.breaks_all.bind _)
termination_by (n, sizeOf ts)

theorem FieldLacksRemainder.breaks {n : Nat} {s : ScopeId} {fs : List Field} {w : World}
    (h : FieldLacksRemainder n s fs w) (slots : Slots) :
    Breaks (evaluateFields (callAt n) s fs slots) w := by
  match fs, h with
  | _, .head h =>
      unfold evaluateFields
      exact h.breaks.bind _
  | _, .tail hvalue hkey h =>
      unfold evaluateFields
      exact hvalue.breaks (hkey.breaks (h.breaks _))
termination_by (n, sizeOf fs)

theorem CallLacksRemainder.breaks {n : Nat} {callee : Value} {args : List Value} {w : World}
    (h : CallLacksRemainder n callee args w) : Breaks (callAt n callee args) w := by
  match n, h with
  | n + 1, .body hcallee hlength hscope hparams h =>
      unfold callAt applyValue
      rw [hcallee]
      dsimp only
      unfold enter
      rw [if_neg (by simpa using hlength)]
      exact hscope.breaks (hparams.breaks (breaks_runBody h.breaks))
termination_by (n, 0)

end

end VariantScript
