import VariantScript.Proofs.Faults.Origins

/-!
# Evaluations keep to an origin

What is evaluated in a world whose functions are of an origin leaves such a world behind, and comes to
moments of the origin only.  By the same cases, a fault that an evaluation fails with has no place or
is that of an evaluation which it starts.
-/

namespace VariantScript

open Syntax Eval

variable {o : Origin} {elsewhere : Prop}

/-- An evaluation that keeps to an origin and ends well. -/
def Moment.Proceeds (o : Origin) (elsewhere : Prop) : Moment → Prop
  | term n s t w => Eval.Proceeds o elsewhere (Value.IsFrom o) (evaluate (callAt n) s t) w
  | call n callee args w => Eval.Proceeds o elsewhere (Value.IsFrom o) (callAt n callee args) w

/-! ## Terms one after the other -/

namespace Eval

variable {n : Nat} {s : ScopeId} {w w' : World}

theorem proceeds_hoist (hw : w.IsFrom o) (s : ScopeId) {body : List Term}
    (hbody : ∀ t ∈ body, o.terms t) : Proceeds o elsewhere (fun _ => True) (hoist s body) w := by
  induction body generalizing w with
  | nil =>
      unfold hoist
      exact proceeds_pure hw trivial
  | cons t body ih =>
      have ht := hbody t (.head _)
      have hrest {w : World} (hw : w.IsFrom o) := ih hw fun t ht => hbody t (.tail _ ht)
      obtain ⟨pos, form⟩ := t
      cases form with
      | functionDeclaration name params block =>
          have hmakes : (Term.node pos (.functionDeclaration name params block)).MakesFunction
              ⟨params.patterns, block, s, some name.text, .function⟩ :=
            ⟨params, rfl, .inr (.inr ⟨name, rfl⟩)⟩
          unfold hoist
          exact (proceeds_makeClosure hw ht hmakes).bind fun f _ _ hw' hf =>
            (proceeds_define hw' s name.text hf).bind fun _ _ _ hw'' _ => hrest hw''
      | illFormed problem =>
          cases problem with
          | wrongFunction b =>
              unfold hoist
              exact proceeds_breakDown hw b
          | _ => exact hrest hw
      | _ => exact hrest hw

theorem proceeds_evaluateBody {ts : List Term} {result : Value} (hw : w.IsFrom o)
    (hts : ∀ t ∈ ts, o.terms t) (hresult : result.IsFrom o)
    (h : ∀ b, AnyStarts n s ts w b → b.IsFrom o → b.Proceeds o elsewhere) :
    Proceeds o elsewhere (Value.IsFrom o) (evaluateBody (callAt n) s result ts) w := by
  induction ts generalizing w result with
  | nil =>
      unfold evaluateBody
      exact proceeds_pure hw hresult
  | cons t ts ih =>
      have hterm : Proceeds o elsewhere (Value.IsFrom o) (evaluate (callAt n) s t) w :=
        h _ .head ⟨hts t (.head _), hw⟩
      unfold evaluateBody
      refine hterm.bind fun v w' hgives hw' hv =>
        ih hw' (fun t ht => hts t (.tail _ ht)) ?_ fun b hb => h b (.tail hgives hb)
      split
      · exact hv
      · exact hresult

theorem proceeds_evaluateAll {ts : List Term} (hw : w.IsFrom o) (hts : ∀ t ∈ ts, o.terms t)
    (h : ∀ b, AnyStarts n s ts w b → b.IsFrom o → b.Proceeds o elsewhere) :
    Proceeds o elsewhere (fun vs => ∀ v ∈ vs, v.IsFrom o) (evaluateAll (callAt n) s ts) w := by
  induction ts generalizing w with
  | nil =>
      unfold evaluateAll
      exact proceeds_pure hw (by simp)
  | cons t ts ih =>
      have hterm : Proceeds o elsewhere (Value.IsFrom o) (evaluate (callAt n) s t) w :=
        h _ .head ⟨hts t (.head _), hw⟩
      unfold evaluateAll
      refine hterm.bind fun v w' hgives hw' hv => ?_
      have hrest := ih hw' (fun t ht => hts t (.tail _ ht)) fun b hb => h b (.tail hgives hb)
      exact hrest.bind fun vs _ _ hw'' hvs => proceeds_pure hw'' (by simpa using ⟨hv, hvs⟩)

theorem proceeds_evaluateFields {fs : List Field} {slots : Slots} (hw : w.IsFrom o)
    (hfs : ∀ t ∈ fs.filterMap Field.value?, o.terms t) (hslots : ∀ slot ∈ slots, slot.2.IsFrom o)
    (h : ∀ b, FieldStarts n s fs w b → b.IsFrom o → b.Proceeds o elsewhere) :
    Proceeds o elsewhere (fun slots : Slots => ∀ slot ∈ slots, slot.2.IsFrom o)
      (evaluateFields (callAt n) s fs slots) w := by
  induction fs generalizing w slots with
  | nil =>
      unfold evaluateFields
      exact proceeds_pure hw hslots
  | cons f fs ih =>
      cases f with
      | broken b =>
          unfold evaluateFields
          exact proceeds_breakDown hw b
      | mk pos key value =>
          have hterm : Proceeds o elsewhere (Value.IsFrom o) (evaluate (callAt n) s value) w :=
            h _ .head ⟨hfs value (.head _), hw⟩
          unfold evaluateFields
          refine hterm.bind fun v w' hvalue hw' hv =>
            (proceeds_decodeKey hw' key).bind fun name w'' hkey hw'' _ => ?_
          refine ih hw'' (fun t ht => hfs t (.tail _ ht)) (fun slot hslot => ?_) fun b hb =>
            h b (.tail hvalue hkey hb)
          rcases Slots.mem_set hslot with rfl | hslot
          · exact hv
          · exact hslots slot hslot

/-! ## Terms -/

theorem truth_of_gives {context : String} {v : Value} {flag : Bool}
    (h : Gives (ofExcept (requireTruth context v)) w flag w') : v.truth? = some flag ∧ w' = w := by
  unfold requireTruth at h
  cases hflag : v.truth? with
  | some flag' =>
      rw [hflag] at h
      cases h
      exact ⟨rfl, rfl⟩
  | none =>
      rw [hflag] at h
      unfold ofExcept fail at h
      dsimp only at h
      split at h <;> cases h

/-- What follows on a condition keeps to an origin if it does for the truth value that there is. -/
theorem proceeds_truth_bind {α : Type} {good : α → Prop} {context : String} {v : Value}
    {k : Bool → Eval α} (hw : w.IsFrom o)
    (h : ∀ flag, v.truth? = some flag → Proceeds o elsewhere good (k flag) w) :
    Proceeds o elsewhere good (ofExcept (requireTruth context v) >>= k) w := by
  have hcondition :
      Proceeds o elsewhere (fun _ => True) (ofExcept (requireTruth context v)) w :=
    proceeds_ofExcept hw fun _ _ => trivial
  refine hcondition.bind fun flag w' hgives _ _ => ?_
  obtain ⟨hflag, rfl⟩ := truth_of_gives hgives
  exact h flag hflag

/-- A form keeps to an origin if the evaluations that it starts do. -/
theorem proceeds_evaluateForm {pos : Option Position} {form : Form} (hw : w.IsFrom o)
    (ht : o.terms (.node pos form))
    (h : ∀ b, (Moment.term n s (.node pos form) w).Starts b → b.IsFrom o → b.Proceeds o elsewhere) :
    Proceeds o elsewhere (Value.IsFrom o) (evaluateForm (callAt n) s form) w := by
  have hfirst {t : Term} (hfirst : form.first? = some t)
      (hreturn : ∀ value, form = .returnValue value → w.isInCall s = true) :
      Proceeds o elsewhere (Value.IsFrom o) (evaluate (callAt n) s t) w :=
    h _ (.first hfirst hreturn) ⟨o.part ht (Form.mem_parts_of_first hfirst), hw⟩
  have hplain {t : Term} (hstarts : form.first? = some t) (hreturn : form.returns? = none) :
      Proceeds o elsewhere (Value.IsFrom o) (evaluate (callAt n) s t) w := by
    refine hfirst hstarts fun value heq => ?_
    rw [heq] at hreturn
    cases hreturn
  have hnext {t t' : Term} {v : Value} {w' : World} (hfirst : form.first? = some t)
      (hgives : Gives (evaluate (callAt n) s t) w v w') (hw' : w'.IsFrom o)
      (hnext : form.next? v = some t') :
      Proceeds o elsewhere (Value.IsFrom o) (evaluate (callAt n) s t') w' :=
    h _ (.next hfirst hgives hnext) ⟨o.part ht (Form.mem_parts_of_next hnext), hw'⟩
  have hparts : ∀ t ∈ form.parts, o.terms t := fun t hpart => o.part ht hpart
  cases form with
  | program body =>
      unfold evaluateForm
      exact (proceeds_hoist hw s hparts).bind fun _ _ hhoist hw' _ =>
        proceeds_evaluateBody hw' hparts .unit fun b hb => h b (.program hhoist hb)
  | block body =>
      unfold evaluateForm
      exact (proceeds_openScope hw _ _).bind fun inner _ hscope hw' _ =>
        (proceeds_hoist hw' inner hparts).bind fun _ _ hhoist hw'' _ =>
          proceeds_evaluateBody hw'' hparts .unit fun b hb => h b (.block hscope hhoist hb)
  | declaration pattern value =>
      unfold evaluateForm
      exact (hplain rfl rfl).bind fun v _ _ hw' hv =>
        (proceeds_bindPattern hw' s pattern hv).bind fun _ _ _ hw'' _ => proceeds_pure hw'' .unit
  | returnNothing =>
      unfold evaluateForm
      apply Proceeds.get_bind
      split
      · exact proceeds_returned hw .unit
      · exact proceeds_fail hw _
  | returnValue value =>
      unfold evaluateForm
      apply Proceeds.get_bind
      split
      · rename_i hinside
        exact (hfirst rfl fun _ _ => hinside).bind fun v _ _ hw' hv => proceeds_returned hw' hv
      · exact proceeds_fail hw _
  | throwValue value =>
      unfold evaluateForm
      exact (hplain rfl rfl).bind fun v _ _ hw' _ => proceeds_fail hw' _
  | ifThen condition yes =>
      unfold evaluateForm
      refine (hplain rfl rfl).bind fun c _ hgives hw' _ =>
        proceeds_truth_bind hw' fun flag hflag => ?_
      cases flag with
      | true => exact hnext rfl hgives hw' (by simp [Form.next?, hflag])
      | false => exact proceeds_pure hw' .unit
  | ifThenElse condition yes no =>
      unfold evaluateForm
      refine (hplain rfl rfl).bind fun c _ hgives hw' _ =>
        proceeds_truth_bind hw' fun flag hflag => ?_
      cases flag <;> exact hnext rfl hgives hw' (by simp [Form.next?, hflag])
  | functionDeclaration name params body =>
      unfold evaluateForm
      exact proceeds_pure hw .unit
  | expressionStatement value =>
      unfold evaluateForm
      exact hplain rfl rfl
  | number literal =>
      unfold evaluateForm
      split
      · exact proceeds_makeNumber hw _
      · exact proceeds_breakDown hw _
  | string literal =>
      unfold evaluateForm
      exact (proceeds_decodeString hw literal.text).bind fun _ _ _ hw' _ => proceeds_pure hw' .string
  | truth flag =>
      unfold evaluateForm
      exact proceeds_pure hw (.truth flag)
  | reference name =>
      unfold evaluateForm
      exact proceeds_resolve hw s name.text
  | array items =>
      unfold evaluateForm
      exact (proceeds_evaluateAll hw hparts fun b hb => h b (.array hb)).bind fun vs _ _ hw' hvs =>
        proceeds_makeArray hw' hvs
  | record fields =>
      unfold evaluateForm
      exact (proceeds_evaluateFields hw hparts (by simp) fun b hb => h b (.record hb)).bind
        fun slots _ _ hw' hslots => proceeds_makeRecord hw' hslots
  | arrow params body =>
      unfold evaluateForm
      exact proceeds_makeClosure hw ht ⟨params, rfl, .inl rfl⟩
  | functionExpression params body =>
      unfold evaluateForm
      exact proceeds_makeClosure hw ht ⟨params, rfl, .inr (.inl rfl)⟩
  | call callee args =>
      unfold evaluateForm
      refine (hplain rfl rfl).bind fun f _ hcallee hw' hf => ?_
      have hargs : Proceeds o elsewhere (fun vs : List Value => ∀ v ∈ vs, v.IsFrom o) _ _ :=
        proceeds_evaluateAll hw' (fun t ht => hparts t (.tail _ ht)) fun b hb =>
          h b (.arguments hcallee hb)
      exact hargs.bind fun vs w'' hgives hw'' hvs =>
        h (.call n f vs w'') (.call hcallee hgives) ⟨hf, hvs, hw''⟩
  | member receiver name =>
      unfold evaluateForm
      exact (hplain rfl rfl).bind fun v _ _ hw' hv => proceeds_getField hw' hv name.text
  | index receiver position =>
      unfold evaluateForm
      exact (hplain rfl rfl).bind fun v _ hgives hw' hv =>
        (hnext rfl hgives hw' rfl).bind fun i _ _ hw'' _ => proceeds_getIndex hw'' hv i
  | unary op opPos operand =>
      unfold evaluateForm
      refine (hplain rfl rfl).bind fun v _ _ hw' _ => ?_
      split
      · exact proceeds_truth_bind hw' fun flag _ => proceeds_pure hw' (.truth _)
      · have hnumber : Proceeds o elsewhere (fun _ => True)
            (ofExcept (requireNumber "unary -" v)) _ :=
          proceeds_ofExcept hw' fun _ _ => trivial
        exact hnumber.bind fun x _ _ hw'' _ => proceeds_makeNumber hw'' _
      · exact proceeds_fail hw' _
  | binary op opPos left right =>
      unfold evaluateForm
      exact (hplain rfl rfl).bind fun l _ hgives hw' _ =>
        (hnext rfl hgives hw' rfl).bind fun r _ _ hw'' _ => proceeds_applyBinary hw'' op l r
  | compare op opPos left right =>
      unfold evaluateForm
      refine (hplain rfl rfl).bind fun l _ hgives hw' _ =>
        (hnext rfl hgives hw' rfl).bind fun r _ _ hw'' _ => ?_
      have hflag : Proceeds o elsewhere (fun _ => True) (ofExcept (applyCompare op l r)) _ :=
        proceeds_ofExcept hw'' fun _ _ => trivial
      exact hflag.bind fun flag _ _ hw''' _ => proceeds_pure hw''' (.truth _)
  | logical op left right =>
      unfold evaluateForm
      refine (hplain rfl rfl).bind fun l _ hgives hw' hl =>
        proceeds_truth_bind hw' fun flag hflag => ?_
      split
      · exact proceeds_pure hw' hl
      · rename_i hskips
        have hgoes : flag = ! decide (op = .or) := by
          cases flag <;> cases op <;> simp_all
        exact (hnext rfl hgives hw' (by simp [Form.next?, hflag, hgoes])).bind
          fun r _ _ hw'' hr => proceeds_truth_bind hw'' fun _ _ => proceeds_pure hw'' hr
  | conditional condition yes no =>
      unfold evaluateForm
      refine (hplain rfl rfl).bind fun c _ hgives hw' _ =>
        proceeds_truth_bind hw' fun flag hflag => ?_
      cases flag <;> exact hnext rfl hgives hw' (by simp [Form.next?, hflag])
  | illFormed problem =>
      cases problem with
      | unknownNode label | unhandledToken type text =>
          unfold evaluateForm
          exact proceeds_fail hw _
      | wrongShape label b =>
          unfold evaluateForm
          exact proceeds_breakDown hw b
      | wrongFunction b =>
          unfold evaluateForm
          exact proceeds_pure hw .unit

/-! ## Calls -/

theorem Proceeds.runBody {body : Term}
    (h : Proceeds o elsewhere (Value.IsFrom o) (evaluate (callAt n) s body) w) :
    Proceeds o elsewhere (Value.IsFrom o) (runBody (callAt n) s body) w := by
  by_cases hblock : body.isBlock = true
  · obtain ⟨hworld, hending⟩ := h
    constructor
    · rw [run_runBody_block hblock]
      exact hworld
    · rw [run_runBody_block hblock]
      generalize ((evaluate (callAt n) s body).run.run w).1 = r at hending
      cases hending with
      | value => exact .value .unit
      | fault hf => exact .fault hf
      | returned hv => exact .value hv
      | tooDeep => exact .tooDeep
      | breakdown => exact .breakdown
  · unfold VariantScript.runBody
    rw [if_neg hblock]
    exact h.bind fun v _ _ hw' hv => proceeds_requireResult hw' hv

/-- A call keeps to an origin if what it starts does. -/
theorem proceeds_callAt {callee : Value} {args : List Value} (hw : w.IsFrom o)
    (hcallee : callee.IsFrom o) (hargs : ∀ v ∈ args, v.IsFrom o)
    (h : ∀ b, (Moment.call n callee args w).Starts b → b.IsFrom o → b.Proceeds o elsewhere) :
    Proceeds o elsewhere (Value.IsFrom o) (callAt n callee args) w := by
  cases callee with
  | variant i tag payload =>
      rw [callAt_variant]
      cases hdispatch : Value.dispatch tag payload args with
      | ok called =>
          obtain ⟨branch, rest⟩ := called
          obtain ⟨hbranch, hrest⟩ := Value.IsFrom.hereditary.dispatch hcallee hargs hdispatch
          exact h _ (.dispatch hdispatch) ⟨hbranch, hrest, hw⟩
      | error e => exact proceeds_fail hw _
  | closure i f =>
      cases n with
      | zero =>
          rw [callAt_zero_closure]
          exact ⟨hw, .tooDeep⟩
      | succ n =>
          rw [callAt_succ_closure]
          unfold enter
          split
          · exact proceeds_fail hw _
          · rename_i hlength
            refine (proceeds_openScope hw _ _).bind fun s w' hscope hw' _ =>
              (proceeds_bindItems hw' s f.params hargs).bind fun _ w'' hparams hw'' _ => ?_
            have hbody : (Moment.term n s f.body w'').Proceeds o elsewhere :=
              h _ (.body (Decidable.not_not.1 hlength) hscope hparams) ⟨o.body hcallee.function, hw''⟩
            exact hbody.runBody
  | builtin operation =>
      rw [callAt_builtin]
      exact proceeds_callBuiltin hw operation hargs
  | number | string | array | record | foreign =>
      cases n <;>
      · unfold callAt applyValue
        simp only [Value.resolve]
        exact proceeds_fail hw _

theorem Proceeds.locate {α : Type} {good : α → Prop} {act : Eval α}
    (h : Proceeds o elsewhere good act w) (pos : Option Position) :
    Proceeds o True good (locate pos act) w := by
  obtain ⟨hworld, hending⟩ := h
  constructor
  · rw [run_locate]
    exact hworld
  · rw [run_locate]
    generalize (act.run.run w).1 = r at hending
    cases hending with
    | value hx => exact .value hx
    | fault => exact .fault (.inr trivial)
    | returned hv => exact .returned hv
    | tooDeep => exact .tooDeep
    | breakdown => exact .breakdown

/-- An evaluation that does not fail did not fail elsewhere. -/
theorem Proceeds.of_not_fault {α : Type} {good : α → Prop} {act : Eval α}
    (h : Proceeds o elsewhere good act w) (hnone : ∀ f, (act.run.run w).1 ≠ .error (.fault f)) :
    Proceeds o False good act w := by
  obtain ⟨hworld, hending⟩ := h
  refine ⟨hworld, ?_⟩
  generalize (act.run.run w).1 = r at hending hnone
  cases hending with
  | value hx => exact .value hx
  | fault => exact absurd rfl (hnone _)
  | returned hv => exact .returned hv
  | tooDeep => exact .tooDeep
  | breakdown => exact .breakdown

end Eval

/-! ## Moments -/

namespace Moment

variable {n : Nat} {s : ScopeId} {w : World} {a b : Moment}

/-- Whatever is evaluated keeps to an origin of which its world and its term are. -/
theorem IsFrom.proceeds (h : a.IsFrom o) : a.Proceeds o True := by
  induction a using Moment.induction with
  | step a ih =>
      cases a with
      | term n s t w =>
          obtain ⟨pos, form⟩ := t
          have hform := proceeds_evaluateForm h.2 h.1 ih
          show Eval.Proceeds o True (Value.IsFrom o) (evaluate (callAt n) s (.node pos form)) w
          unfold evaluate
          exact hform.locate pos
      | call n callee args w => exact proceeds_callAt h.2.2 h.1 h.2.1 ih

theorem isFrom_of_anyStarts {ts : List Term} (h : AnyStarts n s ts w b)
    (hts : ∀ t ∈ ts, o.terms t) (hw : w.IsFrom o) : b.IsFrom o := by
  induction h with
  | head => exact ⟨hts _ (.head _), hw⟩
  | @tail t ts v w w' b hgives _ ih =>
      have hterm : (Moment.term n s t w).IsFrom o := ⟨hts t (.head _), hw⟩
      exact ih (fun t ht => hts t (.tail _ ht)) (hterm.proceeds.of_gives hgives).1

theorem isFrom_of_fieldStarts {fs : List Field} (h : FieldStarts n s fs w b)
    (hfs : ∀ t ∈ fs.filterMap Field.value?, o.terms t) (hw : w.IsFrom o) : b.IsFrom o := by
  induction h with
  | head => exact ⟨hfs _ (.head _), hw⟩
  | @tail pos key value fs v name w w' w'' b hvalue hkey _ ih =>
      have hterm : (Moment.term n s value w).IsFrom o := ⟨hfs value (.head _), hw⟩
      have hw' := (hterm.proceeds.of_gives hvalue).1
      have hdecode : Eval.Proceeds o True (fun _ => True) key.decode w' := proceeds_decodeKey hw' key
      exact ih (fun t ht => hfs t (.tail _ ht)) (hdecode.of_gives hkey).1

/-- What a moment of an origin starts is one of it again. -/
theorem Starts.isFrom (h : a.Starts b) (ha : a.IsFrom o) : b.IsFrom o := by
  cases h with
  | first hfirst => exact ⟨o.part ha.1 (Form.mem_parts_of_first hfirst), ha.2⟩
  | @next n s pos form t t' v w w' hfirst hgives hnext =>
      have hterm : (Moment.term n s t w).IsFrom o :=
        ⟨o.part ha.1 (Form.mem_parts_of_first hfirst), ha.2⟩
      exact ⟨o.part ha.1 (Form.mem_parts_of_next hnext), (hterm.proceeds.of_gives hgives).1⟩
  | @program n s pos body w w' b hhoist h =>
      have hbody : ∀ t ∈ body, o.terms t := fun t ht => o.part ha.1 ht
      have hproceeds : Eval.Proceeds o True (fun _ => True) (hoist s body) w :=
        proceeds_hoist ha.2 s hbody
      exact isFrom_of_anyStarts h hbody (hproceeds.of_gives hhoist).1
  | @block n s inner pos body w w' w'' b hscope hhoist h =>
      have hbody : ∀ t ∈ body, o.terms t := fun t ht => o.part ha.1 ht
      have hopen : Eval.Proceeds o True (fun _ => True) (openScope (some s) false) w :=
        proceeds_openScope ha.2 _ _
      have hproceeds : Eval.Proceeds o True (fun _ => True) (hoist inner body) w' :=
        proceeds_hoist (hopen.of_gives hscope).1 inner hbody
      exact isFrom_of_anyStarts h hbody (hproceeds.of_gives hhoist).1
  | array h => exact isFrom_of_anyStarts h (fun t ht => o.part ha.1 ht) ha.2
  | record h => exact isFrom_of_fieldStarts h (fun t ht => o.part ha.1 ht) ha.2
  | @arguments n s pos callee args f w w' b hcallee h =>
      have hterm : (Moment.term n s callee w).IsFrom o := ⟨o.part ha.1 (.head _), ha.2⟩
      exact isFrom_of_anyStarts h (fun t ht => o.part ha.1 (.tail _ ht))
        (hterm.proceeds.of_gives hcallee).1
  | @call n s pos callee args f vs w w' w'' hcallee hargs =>
      have hterm : (Moment.term n s callee w).IsFrom o := ⟨o.part ha.1 (.head _), ha.2⟩
      obtain ⟨hw', hf⟩ := hterm.proceeds.of_gives hcallee
      have hall : Eval.Proceeds o True (fun vs : List Value => ∀ v ∈ vs, v.IsFrom o)
          (evaluateAll (callAt n) s args) w' :=
        proceeds_evaluateAll hw' (fun t ht => o.part ha.1 (.tail _ ht)) fun b _ hb => hb.proceeds
      obtain ⟨hw'', hvs⟩ := hall.of_gives hargs
      exact ⟨hf, hvs, hw''⟩
  | dispatch hdispatch =>
      obtain ⟨hcallee, hargs, hw⟩ := ha
      obtain ⟨hbranch, hrest⟩ := Value.IsFrom.hereditary.dispatch hcallee hargs hdispatch
      exact ⟨hbranch, hrest, hw⟩
  | @body n i f args s w w' w'' hlength hscope hparams =>
      obtain ⟨hcallee, hargs, hw⟩ := ha
      have hopen : Eval.Proceeds o True (fun _ => True) (openScope (some f.scope) true) w :=
        proceeds_openScope hw _ _
      have hbind : Eval.Proceeds o True (fun _ => True) (bindItems s f.params args) w' :=
        proceeds_bindItems (hopen.of_gives hscope).1 s f.params hargs
      exact ⟨o.body hcallee.function, (hbind.of_gives hparams).1⟩

theorem LeadsTo.isFrom (h : a.LeadsTo b) (ha : a.IsFrom o) : b.IsFrom o := by
  induction h with
  | refl => exact ha
  | tail _ hstarts ih => exact hstarts.isFrom ih

end Moment

end VariantScript
