import Mathlib.Order.Filter.AtTopBot.Basic
import VariantScript.Proofs.Evaluation.Returns
import VariantScript.Proofs.Recursion.Steps

/-!
# Evaluation comes to an end

With a bound on the nesting of calls, an evaluation takes finitely many steps: what it starts lies
further down a well-founded order.  So it is enough to take steps inside each other, deep enough for
the evaluation at hand; what an evaluator does beyond that depth does not show.

Three things go on inside an evaluation: that of a proper part of the term, that of the body of a
function that is called, for which one nested call less is left, and the call of the branch that a
variant selects.  The last one needs no bound, as branch and payload are proper parts of handler and
variant.
-/

namespace VariantScript

open Syntax Eval Filter

/-! ## Evaluations that run alike in the end -/

namespace Eval

section

variable {α β ι : Type} {F : Filter ι} {acts : ι → Eval α} {act : Eval α} {w : World}

/-- Evaluations that in the end run like a given one. -/
def Approaches (F : Filter ι) (acts : ι → Eval α) (act : Eval α) (w : World) : Prop :=
  ∀ᶠ i in F, (acts i).run.run w = act.run.run w

theorem approaches_refl (F : Filter ι) (act : Eval α) (w : World) :
    Approaches F (fun _ => act) act w :=
  Eventually.of_forall fun _ => rfl

theorem Approaches.bind {ks : ι → α → Eval β} {k : α → Eval β} (h : Approaches F acts act w)
    (hk : ∀ x w', Gives act w x w' → Approaches F (fun i => ks i x) (k x) w') :
    Approaches F (fun i => acts i >>= ks i) (act >>= k) w := by
  rcases hact : act.run.run w with ⟨_ | x, w'⟩
  · filter_upwards [h] with i hi
    rw [run_bind, run_bind, hi, hact]
  · filter_upwards [h, hk x w' hact] with i hi hki
    rw [run_bind, run_bind, hi, hact]
    exact hki

/-- What comes before is the same. -/
theorem approaches_bind {ks : ι → α → Eval β} {k : α → Eval β}
    (hk : ∀ x w', Gives act w x w' → Approaches F (fun i => ks i x) (k x) w') :
    Approaches F (fun i => act >>= ks i) (act >>= k) w :=
  (approaches_refl F act w).bind hk

/-- What follows is the same. -/
theorem Approaches.bind_const (h : Approaches F acts act w) (k : α → Eval β) :
    Approaches F (fun i => acts i >>= k) (act >>= k) w :=
  h.bind fun x w' _ => approaches_refl F (k x) w'

/-- The same branch is taken. -/
theorem approaches_ite {c : Prop} [Decidable c] {others : ι → Eval α} {other : Eval α}
    (h : c → Approaches F acts act w) (hother : ¬ c → Approaches F others other w) :
    Approaches F (fun i => if c then acts i else others i) (if c then act else other) w := by
  by_cases hc : c
  · simp only [if_pos hc]
    exact h hc
  · simp only [if_neg hc]
    exact hother hc

theorem Approaches.locate (h : Approaches F acts act w) (pos : Option Position) :
    Approaches F (fun i => locate pos (acts i)) (locate pos act) w := by
  filter_upwards [h] with i hi
  rw [run_locate, run_locate, hi]

/-- A condition that holds or fails has a truth value, which leaves the world as it is. -/
theorem Gives.truth {context : String} {v : Value} {flag : Bool} {w' : World}
    (h : Gives (ofExcept (requireTruth context v)) w flag w') : v.truth? = some flag ∧ w' = w := by
  unfold requireTruth at h
  cases hv : v.truth? with
  | some other =>
      rw [hv] at h
      cases h
      exact ⟨rfl, rfl⟩
  | none =>
      rw [hv] at h
      unfold Gives ofExcept fail at h
      dsimp only at h
      split at h <;> cases h

/-- What follows on a condition goes on in the same world. -/
theorem approaches_truth_bind {context : String} {v : Value} {ks : ι → Bool → Eval β}
    {k : Bool → Eval β}
    (hk : ∀ flag, v.truth? = some flag → Approaches F (fun i => ks i flag) (k flag) w) :
    Approaches F (fun i => ofExcept (requireTruth context v) >>= ks i)
      (ofExcept (requireTruth context v) >>= k) w := by
  apply approaches_bind
  intro flag w' hflag
  obtain ⟨hv, rfl⟩ := hflag.truth
  exact hk flag hv

theorem run_finishBody_block (act : Eval Value) (w : World) :
    (finishBody true act).run.run w = (taken (act.run.run w).1, (act.run.run w).2) := by
  have hbind (k : Except Stop Value → StateM World (Except Stop Value)) :
      (ExceptT.mk (act.run >>= k) : Eval Value).run.run w =
        (k (act.run.run w).1).run (act.run.run w).2 := rfl
  unfold VariantScript.finishBody
  rw [if_pos rfl, hbind]
  rcases (act.run.run w).1 with (_ | _ | _ | _) | _ <;> rfl

theorem Approaches.finishBody {acts : ι → Eval Value} {act : Eval Value}
    (h : Approaches F acts act w) (isBlock : Bool) :
    Approaches F (fun i => finishBody isBlock (acts i)) (finishBody isBlock act) w := by
  cases isBlock with
  | true =>
      filter_upwards [h] with i hi
      rw [run_finishBody_block, run_finishBody_block, hi]
  | false => exact h.bind_const _

end

end Eval

/-! ## Evaluators that run alike in the end -/

namespace Evaluator

section

variable {ι : Type} {F : Filter ι} {es : ι → Evaluator} {n : Nat} {s : ScopeId} {w : World}

theorem approaches_bodyStep (result : Value) {ts : List Term}
    (h : ∀ t w', AnyStarts n s ts w (.term n s t w') →
      Approaches F (fun i => (es i).term n s t) (ofScripts.term n s t) w') :
    Approaches F (fun i => (es i).bodyStep n s result ts) (ofScripts.bodyStep n s result ts) w := by
  induction ts generalizing result w with
  | nil => exact approaches_refl F _ w
  | cons t ts ih =>
      simp only [bodyStep]
      apply (h t w .head).bind
      intro v w' ht
      exact ih _ fun u w'' hu => h u w'' (.tail ht hu)

theorem approaches_allStep {ts : List Term}
    (h : ∀ t w', AnyStarts n s ts w (.term n s t w') →
      Approaches F (fun i => (es i).term n s t) (ofScripts.term n s t) w') :
    Approaches F (fun i => (es i).allStep n s ts) (ofScripts.allStep n s ts) w := by
  induction ts generalizing w with
  | nil => exact approaches_refl F _ w
  | cons t ts ih =>
      simp only [allStep]
      apply (h t w .head).bind
      intro v w' ht
      apply Approaches.bind_const
      exact ih fun u w'' hu => h u w'' (.tail ht hu)

theorem approaches_fieldsStep (slots : Slots) {fs : List Field}
    (h : ∀ t w', FieldStarts n s fs w (.term n s t w') →
      Approaches F (fun i => (es i).term n s t) (ofScripts.term n s t) w') :
    Approaches F (fun i => (es i).fieldsStep n s fs slots) (ofScripts.fieldsStep n s fs slots) w := by
  induction fs generalizing slots w with
  | nil => exact approaches_refl F _ w
  | cons f fs ih =>
      cases f with
      | mk pos key value =>
          simp only [fieldsStep]
          apply (h value w .head).bind
          intro v w' ht
          apply approaches_bind
          intro name w'' hkey
          exact ih _ fun u w₃ hu => h u w₃ (.tail ht hkey hu)
      | broken b => exact approaches_refl F _ w

theorem approaches_formStep (pos : Option Position) (form : Form)
    (h : ∀ b, (Moment.term n s (.node pos form) w).Starts b → ∀ᶠ i in F, (es i).run b = b.run) :
    Approaches F (fun i => (es i).formStep n s form) (ofScripts.formStep n s form) w := by
  -- The evaluators agree in the end on the first part and, where there is one, on the next part.
  have first {t : Term} (hfirst : form.first? = some t)
      (hreturn : ∀ value, form = .returnValue value → w.isInCall s = true) :
      Approaches F (fun i => (es i).term n s t) (ofScripts.term n s t) w :=
    h _ (.first hfirst hreturn)
  have next {t t' : Term} {v : Value} {w' : World} (hfirst : form.first? = some t)
      (ht : Gives (evaluate (callAt n) s t) w v w') (hnext : form.next? v = some t') :
      Approaches F (fun i => (es i).term n s t') (ofScripts.term n s t') w' :=
    h _ (.next hfirst ht hnext)
  cases form with
  | program body =>
      simp only [formStep]
      apply approaches_bind
      intro _ w' hhoist
      exact approaches_bodyStep _ fun t w'' ht => h _ (.program hhoist ht)
  | block body =>
      simp only [formStep]
      apply approaches_bind
      intro inner w' hscope
      apply approaches_bind
      intro _ w'' hhoist
      exact approaches_bodyStep _ fun t w₃ ht => h _ (.block hscope hhoist ht)
  | declaration pattern value | throwValue value | member receiver name | unary op opPos operand =>
      simp only [formStep]
      exact (first rfl fun _ hform => by cases hform).bind_const _
  | returnValue value =>
      simp only [formStep]
      apply approaches_bind
      intro w' w'' hw
      cases hw
      apply approaches_ite
      · intro hinside
        exact (first rfl fun _ _ => hinside).bind_const _
      · intro _
        exact approaches_refl F _ w
  | ifThen condition yes =>
      simp only [formStep]
      apply (first rfl fun _ hform => by cases hform).bind
      intro c w' hc
      apply approaches_truth_bind
      intro flag hflag
      apply approaches_ite
      · intro hyes
        exact next rfl hc (by simp [Form.next?, hflag, hyes])
      · intro _
        exact approaches_refl F _ w'
  | ifThenElse condition yes no | conditional condition yes no =>
      simp only [formStep]
      apply (first rfl fun _ hform => by cases hform).bind
      intro c w' hc
      apply approaches_truth_bind
      intro flag hflag
      apply approaches_ite
      · intro hyes
        exact next rfl hc (by simp [Form.next?, hflag, hyes])
      · intro hno
        exact next rfl hc (by simp [Form.next?, hflag, hno])
  | expressionStatement value => exact first rfl fun _ hform => by cases hform
  | array items =>
      simp only [formStep]
      apply Approaches.bind_const
      exact approaches_allStep fun t w' ht => h _ (.array ht)
  | record fields =>
      simp only [formStep]
      apply Approaches.bind_const
      exact approaches_fieldsStep [] fun t w' ht => h _ (.record ht)
  | call callee args =>
      simp only [formStep]
      apply (first rfl fun _ hform => by cases hform).bind
      intro f w' hf
      apply (approaches_allStep fun t w'' ht => h _ (.arguments hf ht)).bind
      intro vs w'' hvs
      rw [← evaluateAll_eq] at hvs
      exact h _ (.call hf hvs)
  | index receiver position | binary op opPos left right | compare op opPos left right =>
      simp only [formStep]
      apply (first rfl fun _ hform => by cases hform).bind
      intro v w' hv
      exact (next rfl hv rfl).bind_const _
  | logical op left right =>
      simp only [formStep]
      apply (first rfl fun _ hform => by cases hform).bind
      intro l w' hl
      apply approaches_truth_bind
      intro flag hflag
      apply approaches_ite
      · intro _
        exact approaches_refl F _ w'
      · intro hgoes
        exact (next rfl hl (by cases flag <;> simp_all [Form.next?])).bind_const _
  | returnNothing | functionDeclaration | number | string | truth | reference | arrow
  | functionExpression => exact approaches_refl F _ w
  | illFormed problem => cases problem <;> exact approaches_refl F _ w

theorem approaches_callStep (callee : Value) (args : List Value)
    (h : ∀ b, (Moment.call n callee args w).Starts b → ∀ᶠ i in F, (es i).run b = b.run) :
    Approaches F (fun i => (es i).callStep n callee args) (ofScripts.callStep n callee args) w := by
  cases callee with
  | closure i f =>
      cases n with
      | zero => exact approaches_refl F _ w
      | succ n =>
          simp only [callStep, enterStep]
          apply approaches_ite
          · intro _
            exact approaches_refl F _ w
          · intro hlength
            apply approaches_bind
            intro s w' hscope
            apply approaches_bind
            intro _ w'' hparams
            apply Approaches.finishBody
            exact h _ (.body (by simpa using hlength) hscope hparams)
  | variant i tag payload =>
      simp only [callStep]
      cases hdispatch : Value.dispatch tag payload args with
      | ok selected => exact h _ (.dispatch hdispatch)
      | error error => exact approaches_refl F _ w
  | number | string | array | record | builtin | foreign =>
      cases n <;> exact approaches_refl F _ w

/-- A step runs like the evaluation of scripts at a moment if the evaluators do at all the moments
that it starts. -/
theorem eventually_run_step (a : Moment)
    (h : ∀ b, a.Starts b → ∀ᶠ i in F, (es i).run b = b.run) :
    ∀ᶠ i in F, (es i).step.run a = a.run := by
  rw [← run_ofScripts a, ← step_ofScripts]
  cases a with
  | term n s t w =>
      obtain ⟨pos, form⟩ := t
      exact (approaches_formStep pos form h).locate pos
  | call n callee args w => exact approaches_callStep callee args h

end

/-- A step runs like the evaluation of scripts at a moment if the evaluator does at all the moments
that it starts. -/
theorem run_step (e : Evaluator) (a : Moment) (h : ∀ b, a.Starts b → e.run b = b.run) :
    e.step.run a = a.run := by
  have hstep : ∀ᶠ _ in (pure () : Filter Unit), e.step.run a = a.run :=
    eventually_run_step a fun b hb => eventually_pure.2 (h b hb)
  exact eventually_pure.1 hstep

/-- Steps inside each other run like the evaluation of scripts as soon as they go deep enough,
whatever evaluator they end in. -/
theorem exists_run_iterate (a : Moment) :
    ∃ depth₀, ∀ (e : Evaluator) (depth : Nat), depth₀ ≤ depth → (step^[depth] e).run a = a.run := by
  induction a using Moment.induction with
  | step a ih =>
      -- Pairs of an evaluator and a depth, as the depth goes up.
      let F : Filter (Evaluator × Nat) := comap Prod.snd atTop
      have heventually (b : Moment) (hb : a.Starts b) :
          ∀ᶠ p in F, (step^[p.2] p.1).run b = b.run := by
        obtain ⟨depth₀, hdepth₀⟩ := ih b hb
        exact eventually_comap.2 <| eventually_atTop.2
          ⟨depth₀, fun depth hdepth p hp => hdepth₀ p.1 p.2 (hp ▸ hdepth)⟩
      have hstep : ∀ᶠ p in F, (step^[p.2] p.1).step.run a = a.run :=
        eventually_run_step a heventually
      obtain ⟨depth₀, hdepth₀⟩ := eventually_atTop.1 (eventually_comap.1 hstep)
      use depth₀ + 1
      intro e depth hdepth
      obtain ⟨below, rfl⟩ : ∃ below, depth = below + 1 := ⟨depth - 1, by omega⟩
      rw [Function.iterate_succ_apply']
      exact hdepth₀ below (by omega) (e, below) rfl

/-- The evaluation of scripts is the only evaluator that a step does not change. -/
theorem eq_ofScripts {e : Evaluator} (h : e.step = e) : e = ofScripts := by
  have hrun (a : Moment) : e.run a = a.run := by
    obtain ⟨depth, hdepth⟩ := exists_run_iterate a
    rw [← hdepth e depth le_rfl, Function.iterate_fixed h]
  have hterm : e.term = ofScripts.term := by
    funext n s t
    exact ExceptT.ext (StateT.ext fun w => hrun (.term n s t w))
  have hcall : e.call = ofScripts.call := by
    funext n callee args
    exact ExceptT.ext (StateT.ext fun w => hrun (.call n callee args w))
  show Evaluator.mk e.term e.call = ofScripts
  rw [hterm, hcall]

end Evaluator

/-! ## Going down -/

/-- A value that another one is made of. -/
inductive Value.IsPartOf : Value → Value → Prop where
  | item {id : Identity} {items : List Value} {v : Value} (hv : v ∈ items) :
      IsPartOf v (.array id items)
  | field {id : Identity} {slots : Slots} {name : String} {v : Value} (hv : (name, v) ∈ slots) :
      IsPartOf v (.record id slots)
  | payload {id : Identity} {tag : Tag} {payload : Value} :
      IsPartOf payload (.variant id tag payload)

namespace Value

variable {tag : Tag} {payload handler branch : Value} {args rest : List Value}

theorem IsPartOf.sizeOf_lt {v u : Value} (h : v.IsPartOf u) : sizeOf v < sizeOf u := by
  cases h with
  | item hv =>
      have := List.sizeOf_lt_of_mem hv
      simp only [array.sizeOf_spec]
      omega
  | field hv =>
      have := List.sizeOf_lt_of_mem hv
      simp only [record.sizeOf_spec, Prod.mk.sizeOf_spec] at *
      omega
  | payload =>
      simp only [variant.sizeOf_spec]
      omega

theorem isPartOf_of_selectBranch (h : selectBranch tag handler = .ok branch) :
    branch.IsPartOf handler := by
  unfold selectBranch at h
  split at h
  · split at h
    · split at h
      · rename_i hget
        cases h
        exact .field (Slots.mem_of_get? hget)
      · cases h
    · cases h
  · split at h <;> cases h <;> exact .item (by simp)
  · cases h

/-- A variant goes on with a part of its one handler and with its own payload, if with anything. -/
theorem parts_of_dispatch (h : dispatch tag payload args = .ok (branch, rest)) :
    ∃ handler, args = [handler] ∧ branch.IsPartOf handler ∧ (rest = [] ∨ rest = [payload]) := by
  unfold dispatch at h
  split at h
  · rename_i handler
    split at h
    · rename_i hbranch
      cases h
      refine ⟨handler, rfl, isPartOf_of_selectBranch hbranch, ?_⟩
      split
      · exact .inl rfl
      · exact .inr rfl
    · cases h
  · cases h

end Value

namespace Moment

/-- What can go on right inside an evaluation. -/
inductive Descends : Moment → Moment → Prop where
  /-- A term evaluates a proper part of it, with as many nested calls left. -/
  | part {n : Nat} {s s' : ScopeId} {t u : Term} {w w' : World} (hpart : u ∈ t.form.ownParts) :
      Descends (.term n s t w) (.term n s' u w')
  /-- A call that is written makes the call, behind its parts. -/
  | called {n : Nat} {s : ScopeId} {pos : Option Position} {callee : Term} {args : List Term}
      {f : Value} {vs : List Value} {w w' : World} :
      Descends (.term n s (.node pos (.call callee args)) w) (.call n f vs w')
  /-- A variant calls a part of its handler, with its own payload or nothing. -/
  | dispatched {n : Nat} {i : Identity} {tag : Tag} {payload handler branch : Value}
      {rest : List Value} {w : World} (hbranch : branch.IsPartOf handler)
      (hrest : rest = [] ∨ rest = [payload]) :
      Descends (.call n (.variant i tag payload) [handler] w) (.call n branch rest w)
  /-- A function evaluates its body, with one nested call less. -/
  | entered {n : Nat} {i : Identity} {f : Closure} {args : List Value} {s : ScopeId}
      {w w' : World} : Descends (.call (n + 1) (.closure i f) args w) (.term n s f.body w')

variable {a b : Moment}

/-- Nothing else goes on inside an evaluation. -/
theorem Starts.descends (h : a.Starts b) : a.Descends b := by
  cases a with
  | term n s t w =>
      cases b with
      | term m s' u w' =>
          have hm : m = n := by
            cases h with
            | first | next => rfl
            | program _ h | block _ _ h | array h | arguments _ h =>
                obtain ⟨_, _, _, heq⟩ := h.eq_term
                cases heq
                rfl
            | record h =>
                obtain ⟨_, _, _, _, _, heq⟩ := h.eq_term
                cases heq
                rfl
          subst hm
          exact .part h.mem_ownParts
      | call m f vs w' =>
          cases h with
          | call => exact .called
          | program _ h | block _ _ h | array h | arguments _ h =>
              obtain ⟨_, _, _, heq⟩ := h.eq_term
              cases heq
          | record h =>
              obtain ⟨_, _, _, _, _, heq⟩ := h.eq_term
              cases heq
  | call n callee args w =>
      cases h with
      | dispatch hdispatch =>
          obtain ⟨handler, rfl, hbranch, hrest⟩ := Value.parts_of_dispatch hdispatch
          exact .dispatched hbranch hrest
      | body => exact .entered

theorem sizeOf_ownPart {form : Form} {u : Term} (h : u ∈ form.ownParts) :
    sizeOf u < sizeOf form := by
  cases form with
  | record fields =>
      obtain ⟨f, hf, hvalue⟩ := List.mem_filterMap.1 h
      have := List.sizeOf_lt_of_mem hf
      cases f with
      | mk pos key value =>
          cases hvalue
          simp only [Form.record.sizeOf_spec, Field.mk.sizeOf_spec] at *
          omega
      | broken => cases hvalue
  | program body | block body | array body =>
      have := List.sizeOf_lt_of_mem (show u ∈ body from h)
      simp only [Form.program.sizeOf_spec, Form.block.sizeOf_spec, Form.array.sizeOf_spec]
      omega
  | call callee args =>
      rcases List.mem_cons.1 h with rfl | h
      · simp only [Form.call.sizeOf_spec]
        omega
      · have := List.sizeOf_lt_of_mem h
        simp only [Form.call.sizeOf_spec]
        omega
  | ifThenElse | conditional =>
      simp only [Form.ownParts, Form.parts, List.mem_cons, List.not_mem_nil, or_false] at h
      rcases h with rfl | rfl | rfl
      all_goals
        simp only [Form.ifThenElse.sizeOf_spec, Form.conditional.sizeOf_spec]
        omega
  | ifThen | index | binary | compare | logical =>
      simp only [Form.ownParts, Form.parts, List.mem_cons, List.not_mem_nil, or_false] at h
      rcases h with rfl | rfl
      all_goals
        simp only [Form.ifThen.sizeOf_spec, Form.index.sizeOf_spec, Form.binary.sizeOf_spec,
          Form.compare.sizeOf_spec, Form.logical.sizeOf_spec]
        omega
  | declaration | returnValue | throwValue | expressionStatement | member | unary =>
      simp only [Form.ownParts, Form.parts, List.mem_singleton] at h
      subst h
      simp only [Form.declaration.sizeOf_spec, Form.returnValue.sizeOf_spec,
        Form.throwValue.sizeOf_spec, Form.expressionStatement.sizeOf_spec, Form.member.sizeOf_spec,
        Form.unary.sizeOf_spec]
      omega
  | returnNothing | functionDeclaration | number | string | truth | reference | arrow
  | functionExpression | illFormed => cases h

theorem Descends.rank_lt (h : a.Descends b) : WellFoundedRelation.rel b.rank a.rank := by
  cases h with
  | @part n s s' t u w w' hpart =>
      obtain ⟨pos, form⟩ := t
      have := sizeOf_ownPart hpart
      refine .right _ (.right _ ?_)
      show sizeOf u < sizeOf (Term.node pos form)
      simp only [Term.node.sizeOf_spec, Term.form] at *
      omega
  | called => exact .right _ (.left _ _ Nat.zero_lt_one)
  | @dispatched n i tag payload handler branch rest w hbranch hrest =>
      have := hbranch.sizeOf_lt
      refine .right _ (.right _ ?_)
      show sizeOf branch + sizeOf rest < sizeOf (Value.variant i tag payload) + sizeOf [handler]
      rcases hrest with rfl | rfl <;> simp <;> omega
  | entered => exact .left _ _ (Nat.lt_succ_self _)

/-- Evaluations cannot go on inside each other for ever. -/
theorem wellFounded_descends : WellFounded fun b a : Moment => a.Descends b :=
  Subrelation.wf (fun h => h.rank_lt) (InvImage.wf rank WellFoundedRelation.wf)

end Moment

/-! ## Chains of variants -/

/-- A callee with its arguments. -/
abbrev Application := Value × List Value

/-- The callee is a variant that calls a branch in turn. -/
def Application.Selects (p q : Application) : Prop :=
  ∃ i tag payload, p.1 = .variant i tag payload ∧ Value.dispatch tag payload p.2 = .ok q

namespace Application

variable {p q : Application}

theorem Selects.callAt_eq (h : p.Selects q) (n : Nat) : callAt n p.1 p.2 = callAt n q.1 q.2 := by
  obtain ⟨i, tag, payload, hcallee, hdispatch⟩ := h
  rw [hcallee, callAt_variant, hdispatch]

/-- Variants cannot select each other for ever. -/
theorem wellFounded_selects : WellFounded fun q p : Application => p.Selects q := by
  apply Subrelation.wf _
    (InvImage.wf (fun p : Application => sizeOf p.1 + sizeOf p.2) Nat.lt_wfRel.wf)
  rintro q ⟨callee, args⟩ ⟨i, tag, payload, rfl, hdispatch⟩
  exact Value.sizeOf_dispatch_lt hdispatch

/-- A chain of variants comes to a last call, which selects nothing; all of it goes on at the same
depth of nesting, whatever that is. -/
theorem exists_last (p : Application) :
    ∃ q, Relation.ReflTransGen Selects p q ∧ (∀ r, ¬ q.Selects r) ∧
      ∀ n, callAt n p.1 p.2 = callAt n q.1 q.2 := by
  induction p using wellFounded_selects.induction with
  | h p ih =>
      by_cases hp : ∃ q, p.Selects q
      · obtain ⟨q, hq⟩ := hp
        obtain ⟨r, hchain, hlast, hcall⟩ := ih q hq
        exact ⟨r, .head hq hchain, hlast, fun n => (hq.callAt_eq n).trans (hcall n)⟩
      · exact ⟨p, .refl, fun r hr => hp ⟨r, hr⟩, fun _ => rfl⟩

end Application

/-! ## Termination -/

/-- Evaluation ends in a value or an error, whatever bound there is on the nesting of calls: finitely
many steps inside each other do what it does, where a call beyond the bound stops.  A step uses only
what is started by the moment that it is taken at; this is a part of the term, the call that the term
writes, the branch of a variant or the body of a function with one nested call less, and that goes on
for finitely many steps.  A chain of variants ends without the body of a function. -/
theorem evaluation_ends :
    (∀ a : Moment, ∃ depth₀, ∀ (e : Evaluator) (depth : Nat), depth₀ ≤ depth →
      (Evaluator.step^[depth] e).run a = a.run) ∧
    (∀ i f args w, (Moment.call 0 (.closure i f) args w).run = (.error .tooDeep, w)) ∧
    (∀ (e : Evaluator) (a : Moment), (∀ b, a.Starts b → e.run b = b.run) → e.step.run a = a.run) ∧
    (∀ a b : Moment, a.Starts b → a.Descends b) ∧
    (WellFounded fun b a : Moment => a.Descends b) ∧
    ∀ p : Application, ∃ q, Relation.ReflTransGen Application.Selects p q ∧ (∀ r, ¬ q.Selects r) ∧
      ∀ n, callAt n p.1 p.2 = callAt n q.1 q.2 := by
  constructor
  · exact Evaluator.exists_run_iterate
  constructor
  · intro i f args w
    show (callAt 0 (.closure i f) args).run.run w = (.error .tooDeep, w)
    rw [callAt_zero_closure]
    rfl
  constructor
  · exact Evaluator.run_step
  constructor
  · exact fun a b h => h.descends
  constructor
  · exact Moment.wellFounded_descends
  · exact Application.exists_last

end VariantScript
