import VariantScript.Proofs.Evaluation.Effects

/-!
# The course of an evaluation

Between the start of an evaluation and its end the world only grows: whatever is evaluated on the
way finds all that was there before and leaves all that it finds to what follows.  A stop that leaves
a part of a term leaves the term at once.
-/

namespace VariantScript

open Syntax

namespace Eval

variable {α β : Type}

/-- An evaluation that keeps what was there, in whatever world. -/
def Grows (act : Eval α) : Prop :=
  ∀ w : World, w.Extends (act.run.run w).2

/-- An evaluation that comes to a moment and goes on behind it: the world only grows, before and
after, and a stop that leaves the moment is all that follows. -/
structure Includes (act : Eval α) (w : World) (b : Moment) : Prop where
  before : w.Extends b.world
  after : b.run.2.Extends (act.run.run w).2
  stopped (e : Stop) (hstopped : b.run.1 = .error e) : act.run.run w = (.error e, b.run.2)

variable {own : ScopeId} {names : List String} {shown : Value → Prop} {act : Eval α}
  {k : α → Eval β} {w w' : World} {b : Moment} {x : α}

/-! ## Growing -/

theorem Affects.toExtends (h : Affects own names shown act w) : w.Extends (act.run.run w).2 :=
  World.Gains.toExtends h

/-- What was shown on the way does not matter to what is kept. -/
theorem Grows.of_affects (h : ∀ w, Affects own names (fun _ => True) act w) : Grows act :=
  fun w => (h w).toExtends

theorem Quiet.grows (h : Quiet act) : Grows act := by
  intro w
  have hact : Affects ⟨0⟩ [] (fun _ => True) act w := h.affects
  exact hact.toExtends

theorem Grows.bind (h : Grows act) (hk : ∀ x, Grows (k x)) : Grows (act >>= k) := by
  intro w
  have hact := h w
  rw [run_bind]
  generalize act.run.run w = r at hact
  obtain ⟨result, w'⟩ := r
  cases result with
  | ok x => exact hact.trans (hk x w')
  | error e => exact hact

theorem Grows.of_gives (h : Grows act) (hgives : Gives act w x w') : w.Extends w' := by
  have hact := h w
  rw [hgives] at hact
  exact hact

section

variable (n : Nat) (s : ScopeId)

/-- What a term does in whatever world, without what it shows. -/
theorem affects_evaluate (t : Term) (w : World) :
    Affects s t.defines (fun _ => True) (evaluate (callAt n) s t) w :=
  Affects.mono (Moment.grows (.term n s t w)) (List.Sublist.refl _) fun _ _ => trivial

theorem grows_evaluate (t : Term) : Grows (evaluate (callAt n) s t) :=
  .of_affects fun w => affects_evaluate n s t w

theorem grows_callAt (callee : Value) (args : List Value) : Grows (callAt n callee args) :=
  fun w => (Moment.grows (.call n callee args w) ⟨0⟩).toExtends

theorem grows_evaluateBody (result : Value) (ts : List Term) :
    Grows (evaluateBody (callAt n) s result ts) :=
  .of_affects fun _ => affects_evaluateBody result fun t w' _ => affects_evaluate n s t w'

theorem grows_evaluateAll (ts : List Term) : Grows (evaluateAll (callAt n) s ts) :=
  .of_affects fun _ => affects_evaluateAll fun t w' _ => affects_evaluate n s t w'

theorem grows_evaluateFields (slots : Slots) (fs : List Field) :
    Grows (evaluateFields (callAt n) s fs slots) :=
  .of_affects fun _ => affects_evaluateFields slots fun t w' _ => affects_evaluate n s t w'

theorem grows_hoist (body : List Term) : Grows (hoist s body) :=
  .of_affects fun w => affects_hoist s body w

theorem grows_bindPattern (p : Pattern) (v : Value) : Grows (bindPattern s p v) :=
  .of_affects fun w => affects_bindPattern s p v w

theorem grows_bindItems (ps : List Pattern) (vs : List Value) : Grows (bindItems s ps vs) :=
  .of_affects fun w => affects_bindItems s ps vs w

end

theorem grows_openScope (parent : Option ScopeId) (isCall : Bool) :
    Grows (openScope parent isCall) :=
  fun _ => .pushed rfl

/-! ## Including -/

theorem includes_term {n : Nat} {s : ScopeId} {t : Term} :
    Includes (evaluate (callAt n) s t) w (.term n s t w) :=
  ⟨.refl w, .refl _, fun _ h => Prod.ext h rfl⟩

theorem includes_call {n : Nat} {callee : Value} {args : List Value} :
    Includes (callAt n callee args) w (.call n callee args w) :=
  ⟨.refl w, .refl _, fun _ h => Prod.ext h rfl⟩

/-- What comes to a moment before it gives a value comes to it also if more follows. -/
theorem Includes.bind (h : Includes act w b) (hk : ∀ x, Grows (k x)) :
    Includes (act >>= k) w b := by
  obtain ⟨hbefore, hafter, hstopped⟩ := h
  refine ⟨hbefore, ?_, fun e he => by rw [run_bind, hstopped e he]⟩
  rw [run_bind]
  generalize act.run.run w = r at hafter
  obtain ⟨result, w'⟩ := r
  cases result with
  | ok x => exact hafter.trans (hk x w')
  | error e => exact hafter

/-- What follows on a value comes to its moments behind what gave the value. -/
theorem Gives.includes (hgives : Gives act w x w') (hact : Grows act)
    (h : Includes (k x) w' b) : Includes (act >>= k) w b := by
  have hrun : (act >>= k).run.run w = (k x).run.run w' := by
    rw [run_bind, hgives]
  refine ⟨(hact.of_gives hgives).trans h.before, ?_, fun e he => ?_⟩
  · rw [hrun]
    exact h.after
  · rw [hrun]
    exact h.stopped e he

section

variable {n : Nat} {s : ScopeId}

theorem includes_evaluateBody {ts : List Term} (result : Value) (h : AnyStarts n s ts w b) :
    Includes (evaluateBody (callAt n) s result ts) w b := by
  induction h generalizing result with
  | head =>
      unfold evaluateBody
      exact includes_term.bind fun v => grows_evaluateBody n s _ _
  | tail ht _ ih =>
      unfold evaluateBody
      exact ht.includes (grows_evaluate n s _) (ih _)

theorem includes_evaluateAll {ts : List Term} (h : AnyStarts n s ts w b) :
    Includes (evaluateAll (callAt n) s ts) w b := by
  induction h with
  | head =>
      unfold evaluateAll
      exact includes_term.bind fun v => (grows_evaluateAll n s _).bind fun _ =>
        (quiet_pure _).grows
  | tail ht _ ih =>
      unfold evaluateAll
      exact ht.includes (grows_evaluate n s _) (ih.bind fun _ => (quiet_pure _).grows)

theorem includes_evaluateFields {fs : List Field} (slots : Slots) (h : FieldStarts n s fs w b) :
    Includes (evaluateFields (callAt n) s fs slots) w b := by
  induction h generalizing slots with
  | head =>
      unfold evaluateFields
      exact includes_term.bind fun v => (quiet_decodeKey _).grows.bind fun _ =>
        grows_evaluateFields n s _ _
  | tail hvalue hkey _ ih =>
      unfold evaluateFields
      exact hvalue.includes (grows_evaluate n s _) (hkey.includes (quiet_decodeKey _).grows (ih _))

/-- What follows on a condition that has a truth value. -/
theorem Includes.behind_truth {k : Bool → Eval β} {v : Value} {flag : Bool} {context : String}
    (h : Includes (k flag) w b) (hv : v.truth? = some flag) :
    Includes (ofExcept (requireTruth context v) >>= k) w b :=
  (gives_requireTruth hv context w).includes (quiet_ofExcept _).grows h

theorem includes_first {form : Form} {t : Term} (hfirst : form.first? = some t)
    (hreturn : ∀ value, form = .returnValue value → w.isInCall s = true) :
    Includes (evaluateForm (callAt n) s form) w (.term n s t w) := by
  have hterm : Includes (evaluate (callAt n) s t) w (.term n s t w) := includes_term
  have hbranch (context : String) (c : Value) {k : Bool → Eval Value}
      (hk : ∀ flag, Grows (k flag)) :
      Grows (ofExcept (requireTruth context c) >>= k) :=
    (quiet_ofExcept _).grows.bind hk
  cases form <;> cases hfirst <;> unfold evaluateForm
  case declaration pattern =>
    exact hterm.bind fun v => (grows_bindPattern s pattern v).bind fun _ => (quiet_pure _).grows
  case returnValue =>
    have hinside : Gives get w w w := rfl
    refine hinside.includes (fun w => .refl w) ?_
    rw [if_pos (hreturn _ rfl)]
    exact hterm.bind fun v => (quiet_throw _).grows
  case throwValue => exact hterm.bind fun v => (quiet_fail _).grows
  case ifThen yes =>
    refine hterm.bind fun c => hbranch "if" c fun flag => ?_
    cases flag with
    | true => exact grows_evaluate n s yes
    | false => exact (quiet_pure _).grows
  case ifThenElse yes no =>
    refine hterm.bind fun c => hbranch "if" c fun flag => ?_
    cases flag with
    | true => exact grows_evaluate n s yes
    | false => exact grows_evaluate n s no
  case conditional yes no =>
    refine hterm.bind fun c => hbranch "?:" c fun flag => ?_
    cases flag with
    | true => exact grows_evaluate n s yes
    | false => exact grows_evaluate n s no
  case expressionStatement => exact hterm
  case call args =>
    exact hterm.bind fun f => (grows_evaluateAll n s args).bind fun vs => grows_callAt n f vs
  case member name => exact hterm.bind fun v => (quiet_getField v _).grows
  case index position =>
    exact hterm.bind fun v => (grows_evaluate n s position).bind fun i => (quiet_getIndex v i).grows
  case unary op _ =>
    refine hterm.bind fun v => Quiet.grows ?_
    split
    · exact (quiet_ofExcept _).bind fun _ => quiet_pure _
    · exact (quiet_ofExcept _).bind fun _ => quiet_makeNumber _
    · exact quiet_fail _
  case binary op _ right =>
    exact hterm.bind fun l => (grows_evaluate n s right).bind fun r =>
      (quiet_applyBinary op l r).grows
  case compare op _ right =>
    exact hterm.bind fun l => (grows_evaluate n s right).bind fun r =>
      ((quiet_ofExcept _).bind fun _ => quiet_pure _).grows
  case logical op right =>
    refine hterm.bind fun l => hbranch op.spelling l fun flag => ?_
    split
    · exact (quiet_pure _).grows
    · exact (grows_evaluate n s right).bind fun r =>
        ((quiet_ofExcept _).bind fun _ => quiet_pure _).grows

theorem includes_next {form : Form} {t t' : Term} {v : Value} (hfirst : form.first? = some t)
    (ht : Gives (evaluate (callAt n) s t) w v w') (hnext : form.next? v = some t') :
    Includes (evaluateForm (callAt n) s form) w (.term n s t' w') := by
  have hterm : Includes (evaluate (callAt n) s t') w' (.term n s t' w') := includes_term
  cases form <;> cases hfirst <;> simp only [Form.next?, reduceCtorEq] at hnext <;>
    unfold evaluateForm <;> refine ht.includes (grows_evaluate n s _) ?_
  case ifThen =>
    split at hnext <;> cases hnext
    rename_i hv
    exact hterm.behind_truth hv
  case ifThenElse | conditional =>
    obtain ⟨flag, hv, rfl⟩ := Option.map_eq_some_iff.1 hnext
    refine Includes.behind_truth ?_ hv
    cases flag <;> exact hterm
  case logical op _ =>
    split at hnext <;> cases hnext
    rename_i hv
    refine Includes.behind_truth ?_ hv
    rw [if_neg (by simp)]
    exact hterm.bind fun r => ((quiet_ofExcept _).bind fun _ => quiet_pure _).grows
  case index =>
    cases hnext
    exact hterm.bind fun i => (quiet_getIndex _ i).grows
  case binary =>
    cases hnext
    exact hterm.bind fun r => (quiet_applyBinary _ _ r).grows
  case compare =>
    cases hnext
    exact hterm.bind fun r => ((quiet_ofExcept _).bind fun _ => quiet_pure _).grows

end

end Eval

namespace Moment

open Eval

variable {a b : Moment}

/-- A form comes to what it starts. -/
theorem Starts.includes {n : Nat} {s : ScopeId} {pos : Option Position} {form : Form} {w : World}
    (h : (Moment.term n s (.node pos form) w).Starts b) :
    Includes (evaluateForm (callAt n) s form) w b := by
  cases h with
  | first hfirst hreturn => exact includes_first hfirst hreturn
  | next hfirst ht hnext => exact includes_next hfirst ht hnext
  | program hhoist h =>
      unfold evaluateForm
      exact hhoist.includes (grows_hoist s _) (includes_evaluateBody _ h)
  | block hscope hhoist h =>
      unfold evaluateForm
      exact hscope.includes (grows_openScope _ _)
        (hhoist.includes (grows_hoist _ _) (includes_evaluateBody _ h))
  | array h =>
      unfold evaluateForm
      exact (includes_evaluateAll h).bind fun vs => (quiet_makeArray vs).grows
  | record h =>
      unfold evaluateForm
      exact (includes_evaluateFields [] h).bind fun slots => (quiet_makeRecord slots).grows
  | arguments hcallee h =>
      unfold evaluateForm
      exact hcallee.includes (grows_evaluate n s _)
        ((includes_evaluateAll h).bind fun vs => grows_callAt n _ vs)
  | call hcallee hargs =>
      unfold evaluateForm
      exact hcallee.includes (grows_evaluate n s _)
        (hargs.includes (grows_evaluateAll n s _) includes_call)

/-- A stop that leaves what a term starts leaves the term at once, placed there if it is a fault
without a place. -/
theorem Starts.run_of_stopped {n : Nat} {s : ScopeId} {t : Term} {w : World} {e : Stop}
    (h : (Moment.term n s t w).Starts b) (he : b.run.1 = .error e) :
    (Moment.term n s t w).run = (located t.pos (.error e), b.run.2) := by
  obtain ⟨pos, form⟩ := t
  show (evaluate (callAt n) s (.node pos form)).run.run w = _
  unfold evaluate
  rw [run_locate, h.includes.stopped e he]
  rfl

/-- A call is done with a variant as soon as the branch is. -/
theorem run_dispatch {n : Nat} {i : Identity} {tag : Tag} {payload branch : Value}
    {args rest : List Value} {w : World}
    (h : Value.dispatch tag payload args = .ok (branch, rest)) :
    (Moment.call n (.variant i tag payload) args w).run = (Moment.call n branch rest w).run := by
  show (callAt n (.variant i tag payload) args).run.run w = (callAt n branch rest).run.run w
  rw [callAt_variant, h]

/-- How a call of a function ends, by how its body does. -/
theorem run_body {n : Nat} {i : Identity} {f : Closure} {args : List Value} {s : ScopeId}
    {w w' w'' : World} (hlength : args.length = f.params.length)
    (hscope : Gives (openScope (some f.scope) true) w s w')
    (hparams : Gives (bindItems s f.params args) w' () w'') :
    (Moment.call (n + 1) (.closure i f) args w).run =
      (runBody (callAt n) s f.body).run.run w'' := by
  show (callAt (n + 1) (.closure i f) args).run.run w = _
  rw [callAt_succ_closure, enter, if_neg (by simpa using hlength), run_bind, hscope]
  dsimp only
  rw [run_bind, hparams]

/-- What is started finds what was there before. -/
theorem Starts.before (h : a.Starts b) : a.world.Extends b.world := by
  cases a with
  | term n s t w =>
      obtain ⟨pos, form⟩ := t
      exact h.includes.before
  | call n callee args w =>
      cases h with
      | dispatch => exact .refl w
      | body _ hscope hparams =>
          exact ((grows_openScope _ _).of_gives hscope).trans
            ((grows_bindItems _ _ _).of_gives hparams)

/-- What is started leaves what it finds, and what it adds, to what follows. -/
theorem Starts.after (h : a.Starts b) : b.run.2.Extends a.run.2 := by
  cases a with
  | term n s t w =>
      obtain ⟨pos, form⟩ := t
      have hrun : (Moment.term n s (.node pos form) w).run.2 =
          ((evaluateForm (callAt n) s form).run.run w).2 := by
        show ((evaluate (callAt n) s (.node pos form)).run.run w).2 = _
        unfold evaluate
        rw [run_locate]
      rw [hrun]
      exact h.includes.after
  | call n callee args w =>
      cases h with
      | dispatch hdispatch =>
          rw [run_dispatch hdispatch]
          exact .refl _
      | @body n _ f _ s _ _ w'' hlength hscope hparams =>
          rw [run_body hlength hscope hparams]
          by_cases hblock : f.body.isBlock = true
          · rw [run_runBody_block hblock]
            exact .refl _
          · have hbody : Includes (evaluate (callAt n) s f.body) w'' (.term n s f.body w'') :=
              includes_term
            unfold runBody
            rw [if_neg hblock]
            exact (hbody.bind fun v => (quiet_ofExcept _).grows).after

/-- Every moment finds what was there when the whole evaluation started. -/
theorem LeadsTo.before (h : a.LeadsTo b) : a.world.Extends b.world := by
  induction h with
  | refl => exact .refl _
  | tail _ hstarts ih => exact ih.trans hstarts.before

/-- Nothing that there is at the end of a part is missing at the end of the whole evaluation. -/
theorem LeadsTo.after (h : a.LeadsTo b) : b.run.2.Extends a.run.2 := by
  induction h with
  | refl => exact .refl _
  | tail _ hstarts ih => exact hstarts.after.trans ih

theorem world_extends (a : Moment) : a.world.Extends a.run.2 := by
  cases a with
  | term n s t w => exact grows_evaluate n s t w
  | call n callee args w => exact grows_callAt n callee args w

end Moment

end VariantScript
