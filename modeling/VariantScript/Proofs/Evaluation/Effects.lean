import VariantScript.Proofs.Evaluation.Growth
import VariantScript.Proofs.Evaluation.Moments

/-!
# What evaluations do to the world

An evaluation of a term defines names in the scope that it is given, and in no other scope that was
there; a call defines names in none.  Nothing that was there is changed or removed, in whatever world
the evaluation starts and however it ends, and only values that built-in operations were called with
are shown.
-/

namespace VariantScript

open Syntax Eval

/-! ## Names that are defined -/

mutual

/-- The names that the evaluation of a term defines in its scope, in order, if it gets that far. -/
def Syntax.Term.defines : Term → List String
  | .node _ form => form.defines

/-- The names that the evaluation of a form defines in its scope. -/
def Syntax.Form.defines : Form → List String
  | .program body => body.filterMap Term.declared? ++ Term.definesOfAll body
  -- The names of a block and of a function's body belong to scopes of their own.
  | .block _ | .functionDeclaration _ _ _ | .arrow _ _ | .functionExpression _ _ => []
  | .declaration pattern value => value.defines ++ pattern.names
  | .returnValue t | .throwValue t | .expressionStatement t | .member t _ | .unary _ _ t =>
      t.defines
  | .index t u | .binary _ _ t u | .compare _ _ t u | .logical _ t u | .ifThen t u =>
      t.defines ++ u.defines
  | .ifThenElse t u v | .conditional t u v => t.defines ++ (u.defines ++ v.defines)
  | .array items => Term.definesOfAll items
  | .record fields => Field.definesOfAll fields
  | .call callee args => callee.defines ++ Term.definesOfAll args
  | .returnNothing | .number _ | .string _ | .truth _ | .reference _ | .illFormed _ => []

/-- The names that terms define one after the other. -/
def Syntax.Term.definesOfAll : List Term → List String
  | [] => []
  | t :: ts => t.defines ++ Term.definesOfAll ts

/-- The names that the values of fields define one after the other. -/
def Syntax.Field.definesOfAll : List Field → List String
  | [] => []
  | .mk _ _ value :: fs => value.defines ++ Field.definesOfAll fs
  | .broken _ :: fs => Field.definesOfAll fs

end

/-! ## Evaluations -/

/-- An evaluation that keeps what was there, defines the names of its term in its scope and shows
values that built-in operations are called with on the way. -/
def Moment.Grows : Moment → Prop
  | term n s t w => Affects s t.defines (term n s t w).Shows (evaluate (callAt n) s t) w
  | call n callee args w => ∀ own, Affects own [] (call n callee args w).Shows (callAt n callee args) w

namespace Eval

section

variable {own : ScopeId} {names : List String} {shown : Value → Prop} {n : Nat} {s : ScopeId}
  {v : Value} {w : World}

/-- What follows on a condition goes on in the same world, with the truth value of the condition. -/
theorem affects_requireTruth_bind {β : Type} {k : Bool → Eval β} (context : String)
    (next : ∀ flag, v.truth? = some flag → Affects own names shown (k flag) w) :
    Affects own names shown (ofExcept (requireTruth context v) >>= k) w := by
  unfold requireTruth
  cases hflag : v.truth? with
  | some flag => exact next flag hflag
  | none =>
      refine Quiet.bind_affects (quiet_fail _) fun flag w' hgives => ?_
      -- A fault gives no value.
      have hrun : ((fail (.expectsBoolean context v) : Eval Bool).run.run w).1 = .ok flag := by
        have hgives : (fail (.expectsBoolean context v) : Eval Bool).run.run w = (.ok flag, w') :=
          hgives
        rw [hgives]
      unfold fail at hrun
      split at hrun <;> cases hrun

theorem affects_evaluateBody (result : Value) {ts : List Term}
    (h : ∀ t w', AnyStarts n s ts w (.term n s t w') →
      Affects s t.defines shown (evaluate (callAt n) s t) w') :
    Affects s (Term.definesOfAll ts) shown (evaluateBody (callAt n) s result ts) w := by
  induction ts generalizing result w with
  | nil =>
      unfold evaluateBody
      exact affects_pure
  | cons t ts ih =>
      unfold evaluateBody Term.definesOfAll
      exact (h t w .head).bind fun v w' ht => ih _ fun u w'' hu => h u w'' (.tail ht hu)

theorem affects_evaluateAll {ts : List Term}
    (h : ∀ t w', AnyStarts n s ts w (.term n s t w') →
      Affects s t.defines shown (evaluate (callAt n) s t) w') :
    Affects s (Term.definesOfAll ts) shown (evaluateAll (callAt n) s ts) w := by
  induction ts generalizing w with
  | nil =>
      unfold evaluateAll
      exact affects_pure
  | cons t ts ih =>
      unfold evaluateAll Term.definesOfAll
      refine (h t w .head).bind fun v w' ht => ?_
      exact (ih fun u w'' hu => h u w'' (.tail ht hu)).bind_quiet fun _ => quiet_pure _

theorem affects_evaluateFields (slots : Slots) {fs : List Field}
    (h : ∀ t w', FieldStarts n s fs w (.term n s t w') →
      Affects s t.defines shown (evaluate (callAt n) s t) w') :
    Affects s (Field.definesOfAll fs) shown (evaluateFields (callAt n) s fs slots) w := by
  induction fs generalizing slots w with
  | nil =>
      unfold evaluateFields
      exact affects_pure
  | cons f fs ih =>
      cases f with
      | mk pos key value =>
          unfold evaluateFields Field.definesOfAll
          refine (h value w .head).bind fun v w' ht => ?_
          exact (quiet_decodeKey key).bind_affects fun name w'' hkey =>
            ih _ fun u w₃ hu => h u w₃ (.tail ht hkey hu)
      | broken b =>
          unfold evaluateFields
          exact (quiet_breakDown b).affects.mono (List.nil_sublist _) fun _ hv => hv

theorem affects_runBody {body : Term} (h : Affects s names shown (evaluate (callAt n) s body) w) :
    Affects s names shown (runBody (callAt n) s body) w := by
  by_cases hblock : body.isBlock = true
  · unfold Affects
    rw [run_runBody_block hblock]
    exact h
  · unfold runBody
    rw [if_neg hblock]
    exact h.bind_quiet fun v => quiet_ofExcept _

end

end Eval

namespace Moment

section

variable {n : Nat} {s : ScopeId} {w : World} {a : Moment}

/-- What a moment that is started does is part of what the moment that starts it does. -/
theorem Starts.affects {t : Term} {w' : World} (h : a.Starts (.term n s t w'))
    (ih : ∀ b, a.Starts b → b.Grows) :
    Affects s t.defines a.Shows (evaluate (callAt n) s t) w' :=
  Affects.mono (ih _ h) (List.Sublist.refl _) fun _ hv => h.shows hv

theorem affects_first {pos : Option Position} {form : Form} {t : Term}
    (ih : ∀ b, (Moment.term n s (.node pos form) w).Starts b → b.Grows)
    (hfirst : form.first? = some t)
    (hreturn : ∀ value, form = .returnValue value → w.isInCall s = true) :
    Affects s t.defines (Moment.term n s (.node pos form) w).Shows (evaluate (callAt n) s t) w :=
  Starts.affects (.first hfirst hreturn) ih

theorem grows_form (pos : Option Position) (form : Form)
    (ih : ∀ b, (Moment.term n s (.node pos form) w).Starts b → b.Grows) :
    Affects s form.defines (Moment.term n s (.node pos form) w).Shows
      (evaluateForm (callAt n) s form) w := by
  cases form with
  | program body =>
      unfold evaluateForm Form.defines
      refine (affects_hoist s body w).bind fun _ w' hhoist => ?_
      exact affects_evaluateBody _ fun t w'' ht => Starts.affects (.program hhoist ht) ih
  | block body =>
      unfold evaluateForm Form.defines
      exact affects_openScope_bind fun inner w' hscope =>
        (affects_hoist inner body w').bind fun _ w'' hhoist =>
          affects_evaluateBody _ fun t w₃ ht => Starts.affects (.block hscope hhoist ht) ih
  | declaration pattern value =>
      unfold evaluateForm Form.defines
      refine (affects_first ih rfl fun _ h => by cases h).bind fun v w' _ => ?_
      exact (affects_bindPattern s pattern v w').bind_quiet fun _ => quiet_pure _
  | returnNothing =>
      unfold evaluateForm Form.defines
      refine affects_get_bind ?_
      split
      · exact (quiet_throw _).affects
      · exact (quiet_fail _).affects
  | returnValue value =>
      unfold evaluateForm Form.defines
      refine affects_get_bind ?_
      split
      · rename_i hinside
        exact (affects_first ih rfl fun _ _ => hinside).bind_quiet fun v => quiet_throw _
      · exact (quiet_fail _).affects.mono (List.nil_sublist _) fun _ hv => hv
  | throwValue value =>
      unfold evaluateForm Form.defines
      exact (affects_first ih rfl fun _ h => by cases h).bind_quiet fun v => quiet_fail _
  | ifThen condition yes =>
      unfold evaluateForm Form.defines
      refine (affects_first ih rfl fun _ h => by cases h).bind fun c w' hc => ?_
      refine affects_requireTruth_bind "if" fun flag hflag => ?_
      cases flag with
      | true => exact Starts.affects (.next rfl hc (by simp [Form.next?, hflag])) ih
      | false => exact affects_pure
  | ifThenElse condition yes no =>
      unfold evaluateForm Form.defines
      refine (affects_first ih rfl fun _ h => by cases h).bind fun c w' hc => ?_
      refine affects_requireTruth_bind "if" fun flag hflag => ?_
      have hbranch := Starts.affects (.next rfl hc (by simp [Form.next?, hflag]; rfl)) ih
      cases flag with
      | true => exact hbranch.mono (List.sublist_append_left _ _) fun _ hv => hv
      | false => exact hbranch.mono (List.sublist_append_right _ _) fun _ hv => hv
  | functionDeclaration name params body =>
      unfold evaluateForm
      exact affects_pure
  | expressionStatement value =>
      unfold evaluateForm Form.defines
      exact affects_first ih rfl fun _ h => by cases h
  | number literal =>
      unfold evaluateForm Form.defines
      split
      · exact (quiet_makeNumber _).affects
      · exact (quiet_breakDown _).affects
  | string literal =>
      unfold evaluateForm Form.defines
      exact Quiet.affects ((quiet_decodeString _).bind fun _ => quiet_pure _)
  | truth flag =>
      unfold evaluateForm
      exact affects_pure
  | reference name =>
      unfold evaluateForm Form.defines
      exact (quiet_resolve s _).affects
  | array items =>
      unfold evaluateForm Form.defines
      exact (affects_evaluateAll fun t w' ht => Starts.affects (.array ht) ih).bind_quiet
        fun _ => quiet_makeArray _
  | record fields =>
      unfold evaluateForm Form.defines
      exact (affects_evaluateFields [] fun t w' ht => Starts.affects (.record ht) ih).bind_quiet
        fun _ => quiet_makeRecord _
  | arrow params body =>
      unfold evaluateForm Form.defines
      exact (quiet_makeClosure _).affects
  | functionExpression params body =>
      unfold evaluateForm Form.defines
      exact (quiet_makeClosure _).affects
  | call callee args =>
      unfold evaluateForm Form.defines
      refine (affects_first ih rfl fun _ h => by cases h).bind fun f w' hf => ?_
      have hargs := affects_evaluateAll fun t w'' ht => Starts.affects (.arguments hf ht) ih
      rw [← List.append_nil (Term.definesOfAll args)]
      refine hargs.bind fun vs w'' hvs => ?_
      have hcall : (Moment.term n s (.node pos (.call callee args)) w).Starts (.call n f vs w'') :=
        .call hf hvs
      exact Affects.mono (ih _ hcall s) (List.Sublist.refl _) fun _ hv => hcall.shows hv
  | member receiver name =>
      unfold evaluateForm Form.defines
      exact (affects_first ih rfl fun _ h => by cases h).bind_quiet fun v => quiet_getField v _
  | index receiver position =>
      unfold evaluateForm Form.defines
      refine (affects_first ih rfl fun _ h => by cases h).bind fun v w' hv => ?_
      exact (Starts.affects (.next rfl hv rfl) ih).bind_quiet fun i => quiet_getIndex v i
  | unary op opPos operand =>
      unfold evaluateForm Form.defines
      refine (affects_first ih rfl fun _ h => by cases h).bind_quiet fun v => ?_
      split
      · exact (quiet_ofExcept _).bind fun _ => quiet_pure _
      · exact (quiet_ofExcept _).bind fun _ => quiet_makeNumber _
      · exact quiet_fail _
  | binary op opPos left right =>
      unfold evaluateForm Form.defines
      refine (affects_first ih rfl fun _ h => by cases h).bind fun l w' hl => ?_
      exact (Starts.affects (.next rfl hl rfl) ih).bind_quiet fun r => quiet_applyBinary op l r
  | compare op opPos left right =>
      unfold evaluateForm Form.defines
      refine (affects_first ih rfl fun _ h => by cases h).bind fun l w' hl => ?_
      exact (Starts.affects (.next rfl hl rfl) ih).bind_quiet fun r =>
        (quiet_ofExcept _).bind fun _ => quiet_pure _
  | logical op left right =>
      unfold evaluateForm Form.defines
      refine (affects_first ih rfl fun _ h => by cases h).bind fun l w' hl => ?_
      refine affects_requireTruth_bind op.spelling fun flag hflag => ?_
      split
      · exact affects_pure
      · have hnext : (Form.logical op left right).next? l = some right := by
          cases flag <;> simp_all [Form.next?]
        exact (Starts.affects (.next rfl hl hnext) ih).bind_quiet fun r =>
          (quiet_ofExcept _).bind fun _ => quiet_pure _
  | conditional condition yes no =>
      unfold evaluateForm Form.defines
      refine (affects_first ih rfl fun _ h => by cases h).bind fun c w' hc => ?_
      refine affects_requireTruth_bind "?:" fun flag hflag => ?_
      have hbranch := Starts.affects (.next rfl hc (by simp [Form.next?, hflag]; rfl)) ih
      cases flag with
      | true => exact hbranch.mono (List.sublist_append_left _ _) fun _ hv => hv
      | false => exact hbranch.mono (List.sublist_append_right _ _) fun _ hv => hv
  | illFormed problem =>
      unfold evaluateForm Form.defines
      cases problem with
      | unknownNode | unhandledToken => exact (quiet_fail _).affects
      | wrongShape => exact (quiet_breakDown _).affects
      | wrongFunction => exact affects_pure

theorem grows_call {callee : Value} {args : List Value}
    (ih : ∀ b, (Moment.call n callee args w).Starts b → b.Grows) (own : ScopeId) :
    Affects own [] (Moment.call n callee args w).Shows (callAt n callee args) w := by
  cases callee with
  | variant i tag payload =>
      rw [callAt_variant]
      split
      · rename_i hdispatch
        have hstarts := Starts.dispatch (n := n) (i := i) (w := w) hdispatch
        exact Affects.mono (ih _ hstarts own) (List.Sublist.refl _) fun _ hv => hstarts.shows hv
      · exact (quiet_fail _).affects
  | closure i f =>
      cases n with
      | zero =>
          rw [callAt_zero_closure]
          exact (quiet_throw _).affects
      | succ n =>
          rw [callAt_succ_closure]
          unfold enter
          split
          · exact (quiet_fail _).affects
          · rename_i hlength
            exact affects_openScope_bind fun inner w' hscope =>
              (affects_bindItems inner f.params args w').bind fun _ w'' hbind =>
                affects_runBody (Starts.affects (.body (by simpa using hlength) hscope hbind) ih)
  | builtin operation =>
      rw [callAt_builtin]
      refine affects_callBuiltin operation args fun v hdebug hargs => ?_
      subst hdebug hargs
      exact ⟨n, w, .refl⟩
  | number | string | array | record | foreign =>
      cases n <;> unfold callAt applyValue <;> simp only [Value.resolve] <;>
        exact (quiet_fail _).affects

end

/-- Every evaluation keeps what was there, whatever it starts. -/
theorem grows (a : Moment) : a.Grows := by
  induction a using Moment.induction with
  | step a ih =>
      cases a with
      | term n s t w =>
          obtain ⟨pos, form⟩ := t
          unfold Grows
          unfold evaluate Term.defines
          exact (grows_form pos form ih).locate pos
      | call n callee args w => exact grows_call ih

end Moment

end VariantScript
