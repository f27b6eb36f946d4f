import VariantScript.Proofs.Recursion.Termination
import VariantScript.Proofs.SideBySide.Steps

/-!
# Limits on the recursion

How deep evaluations may go is limited in two ways: calls may nest to a bound, and every evaluation
that goes on takes up some of a limit.  An evaluation that comes to an end below such a limit ends
alike, in the same world, above it; one that goes too deep has shown nothing that is not shown with a
higher limit, too.  It is enough that no step looks into an evaluation that went too deep.
-/

namespace VariantScript

open Syntax Eval

/-! ## Evaluations that stop early -/

namespace Eval

section

variable {α β : Type} {few many : Eval α} {w : World}

/-- A run from a world goes like another one, unless it stops on the way because it goes too deep. -/
structure Cuts (w : World) (few many : Except Stop α × World) : Prop where
  adds : w.events.toList <+: many.2.events.toList
  events : few.2.events.toList <+: many.2.events.toList
  finished (h : few.1 ≠ .error .tooDeep) : many = few

/-- The first evaluation goes like the second one, unless it goes too deep. -/
def Truncates (few many : Eval α) : Prop :=
  ∀ w, Cuts w (few.run.run w) (many.run.run w)

theorem Truncates.toAdds (h : Truncates few many) : Adds many :=
  ⟨fun w => (h w).adds⟩

theorem truncates_refl (act : Eval α) [hadds : Adds act] : Truncates act act :=
  fun w => ⟨hadds.events w, List.prefix_rfl, fun _ => rfl⟩

/-- What goes too deep at once. -/
theorem truncates_throw [hadds : Adds many] : Truncates (throw .tooDeep) many :=
  fun w => ⟨hadds.events w, hadds.events w, fun h => absurd rfl h⟩

theorem Truncates.bind {k k' : α → Eval β} (h : Truncates few many)
    (hk : ∀ x, Truncates (k x) (k' x)) : Truncates (few >>= k) (many >>= k') := by
  intro w
  have hmany := h.toAdds
  have hadds (x : α) : Adds (k' x) := (hk x).toAdds
  have hbind : Adds (many >>= k') := inferInstance
  obtain ⟨-, hevents, hfinished⟩ := h w
  rcases hrun : few.run.run w with ⟨result, w'⟩
  rw [hrun] at hevents hfinished
  by_cases hdeep : result = .error .tooDeep
  · -- The first evaluation stops here; the second one may go on and adds events.
    subst hdeep
    have hfew : (few >>= k).run.run w = (.error .tooDeep, w') := by
      rw [run_bind, hrun]
    have hrest : (many.run.run w).2.events.toList <+:
        ((many >>= k').run.run w).2.events.toList := by
      rw [run_bind]
      rcases many.run.run w with ⟨_ | x, w''⟩
      · exact List.prefix_rfl
      · exact (hadds x).events w''
    rw [hfew]
    exact ⟨hbind.events w, hevents.trans hrest, fun hne => absurd rfl hne⟩
  · have hsame := hfinished hdeep
    have hevents := hbind.events w
    rw [run_bind, hsame] at hevents
    rw [run_bind, run_bind, hrun, hsame]
    cases result with
    | error e => exact ⟨hevents, List.prefix_rfl, fun _ => rfl⟩
    | ok x => exact ⟨hevents, (hk x w').events, (hk x w').finished⟩

theorem Truncates.bind_const (h : Truncates few many) (k : α → Eval β) [hk : ∀ x, Adds (k x)] :
    Truncates (few >>= k) (many >>= k) :=
  h.bind fun x => truncates_refl (k x)

theorem Truncates.ite {c : Prop} [Decidable c] {few' many' : Eval α} (h : Truncates few many)
    (h' : Truncates few' many') :
    Truncates (if c then few else few') (if c then many else many') := by
  split
  · exact h
  · exact h'

/-- Only the end of a run is changed, and too deep remains too deep. -/
theorem Cuts.map {few many : Except Stop α × World} (h : Cuts w few many)
    {f : Except Stop α → Except Stop β} (hf : f (.error .tooDeep) = .error .tooDeep) :
    Cuts w (f few.1, few.2) (f many.1, many.2) := by
  refine ⟨h.adds, h.events, fun hne => ?_⟩
  have hsame : many = few := by
    apply h.finished
    intro hdeep
    rw [hdeep] at hne
    exact hne hf
  rw [hsame]

theorem Truncates.locate (h : Truncates few many) (pos : Option Position) :
    Truncates (locate pos few) (locate pos many) := by
  intro w
  rw [run_locate, run_locate]
  exact (h w).map rfl

theorem Truncates.finishBody {few many : Eval Value} (h : Truncates few many) (isBlock : Bool) :
    Truncates (finishBody isBlock few) (finishBody isBlock many) := by
  cases isBlock with
  | false => exact h.bind_const _
  | true =>
      intro w
      rw [run_finishBody_block, run_finishBody_block]
      exact (h w).map rfl

theorem Cuts.observations {few many : Except Stop α × World} (h : Cuts w few many) :
    few.2.observations <+: many.2.observations :=
  h.events.filterMap _

end

/-! ## Operations that add events -/

section

variable {α : Type}

instance : Adds (get : Eval World) :=
  ⟨fun _ => List.prefix_rfl⟩

instance (b : Breakdown) : Adds (breakDown b : Eval α) := .of_quiet (quiet_breakDown b)

instance (parent : Option ScopeId) (isCall : Bool) : Adds (openScope parent isCall) :=
  ⟨fun _ => List.prefix_rfl⟩

instance (s : ScopeId) (body : List Term) : Adds (hoist s body) :=
  .of_affects fun w => affects_hoist s body w

instance (s : ScopeId) (ps : List Pattern) (vs : List Value) : Adds (bindItems s ps vs) :=
  .of_affects fun w => affects_bindItems s ps vs w

end

end Eval

namespace Evaluator

section

variable (n : Nat) (s : ScopeId)

instance (t : Term) : Adds (ofScripts.term n s t) :=
  inferInstanceAs (Adds (evaluate (callAt n) s t))

instance (callee : Value) (args : List Value) : Adds (ofScripts.call n callee args) :=
  inferInstanceAs (Adds (callAt n callee args))

theorem adds_formStep (form : Form) : Adds (ofScripts.formStep n s form) := by
  have hterm : Adds (evaluate (callAt n) s (.node none form)) := inferInstance
  constructor
  intro w
  have hevents := hterm.events w
  rw [evaluate, run_locate, evaluateForm_eq] at hevents
  exact hevents

theorem adds_callStep (callee : Value) (args : List Value) :
    Adds (ofScripts.callStep n callee args) := by
  rw [← callAt_eq]
  infer_instance

end

/-- The first evaluator goes like the second one for every bound on the nesting of calls that is not
higher, unless it goes too deep. -/
structure Truncates (few many : Evaluator) : Prop where
  term {n m : Nat} (h : n ≤ m) (s : ScopeId) (t : Term) :
    Eval.Truncates (few.term n s t) (many.term m s t)
  call {n m : Nat} (h : n ≤ m) (callee : Value) (args : List Value) :
    Eval.Truncates (few.call n callee args) (many.call m callee args)

namespace Truncates

variable {few many : Evaluator} (h : few.Truncates many) {n m : Nat} (hle : n ≤ m) {s : ScopeId}

include h hle

theorem bodyStep (result : Value) (ts : List Term) :
    Eval.Truncates (few.bodyStep n s result ts) (many.bodyStep m s result ts) := by
  induction ts generalizing result with
  | nil => exact truncates_refl (pure result)
  | cons t ts ih => exact (h.term hle s t).bind fun v => ih _

theorem allStep (ts : List Term) :
    Eval.Truncates (few.allStep n s ts) (many.allStep m s ts) := by
  induction ts with
  | nil => exact truncates_refl (pure [])
  | cons t ts ih => exact (h.term hle s t).bind fun v => ih.bind_const _

theorem fieldsStep (fs : List Field) (slots : Slots) :
    Eval.Truncates (few.fieldsStep n s fs slots) (many.fieldsStep m s fs slots) := by
  induction fs generalizing slots with
  | nil => exact truncates_refl (pure slots)
  | cons f fs ih =>
      cases f with
      | mk pos key value =>
          apply (h.term hle s value).bind
          intro v
          exact (truncates_refl key.decode).bind fun name => ih _
      | broken b => exact truncates_refl (breakDown b)

theorem formStep (form : Form) :
    Eval.Truncates (few.formStep n s form) (many.formStep m s form) := by
  have hpart (t : Term) := h.term hle s t
  have := adds_formStep n s form
  -- Where no part is evaluated, both go like the evaluation of scripts.
  have hleaf := truncates_refl (ofScripts.formStep n s form)
  cases form with
  | program body => exact (truncates_refl (hoist s body)).bind fun _ => h.bodyStep hle _ body
  | block body =>
      apply (truncates_refl (openScope (some s) false)).bind
      intro inner
      exact (truncates_refl (hoist inner body)).bind fun _ => h.bodyStep hle _ body
  | declaration pattern value => exact (hpart value).bind_const _
  | returnValue value =>
      apply (truncates_refl get).bind
      intro w
      exact Eval.Truncates.ite ((hpart value).bind_const _) (truncates_refl _)
  | throwValue value => exact (hpart value).bind_const _
  | ifThen condition yes =>
      apply (hpart condition).bind
      intro c
      apply (truncates_refl (Eval.ofExcept _)).bind
      intro flag
      exact (hpart yes).ite (truncates_refl _)
  | ifThenElse condition yes no | conditional condition yes no =>
      apply (hpart condition).bind
      intro c
      apply (truncates_refl (Eval.ofExcept _)).bind
      intro flag
      exact (hpart yes).ite (hpart no)
  | expressionStatement value => exact hpart value
  | array items => exact (h.allStep hle items).bind_const _
  | record fields => exact (h.fieldsStep hle fields []).bind_const _
  | call callee args =>
      apply (hpart callee).bind
      intro f
      exact (h.allStep hle args).bind fun vs => h.call hle f vs
  | member receiver name => exact (hpart receiver).bind_const _
  | index receiver position => exact (hpart receiver).bind fun v => (hpart position).bind_const _
  | unary op opPos operand =>
      apply (hpart operand).bind
      intro v
      cases op <;> exact truncates_refl _
  | binary op opPos left right => exact (hpart left).bind fun l => (hpart right).bind_const _
  | compare op opPos left right => exact (hpart left).bind fun l => (hpart right).bind_const _
  | logical op left right =>
      apply (hpart left).bind
      intro l
      apply (truncates_refl (Eval.ofExcept _)).bind
      intro flag
      exact (truncates_refl (pure l)).ite ((hpart right).bind_const _)
  | returnNothing | functionDeclaration | number | string | truth | reference | arrow
  | functionExpression => exact hleaf
  | illFormed problem => cases problem <;> exact hleaf

theorem enterStep (f : Closure) (args : List Value) :
    Eval.Truncates (few.enterStep n f args) (many.enterStep m f args) := by
  apply (truncates_refl (fail _)).ite
  apply (truncates_refl (openScope (some f.scope) true)).bind
  intro s
  apply (truncates_refl (bindItems s f.params args)).bind
  intro _
  exact (h.term hle s f.body).finishBody f.body.isBlock

theorem callStep (callee : Value) (args : List Value) :
    Eval.Truncates (few.callStep n callee args) (many.callStep m callee args) := by
  have := adds_callStep m callee args
  have hleaf := truncates_refl (ofScripts.callStep m callee args)
  cases callee with
  | closure i f =>
      cases n with
      | zero =>
          cases m with
          | zero => exact hleaf
          | succ m =>
              have hadds : Adds (many.callStep (m + 1) (.closure i f) args) :=
                (h.enterStep (Nat.zero_le m) f args).toAdds
              exact truncates_throw
      | succ n =>
          obtain ⟨m, rfl⟩ : ∃ m', m = m' + 1 := ⟨m - 1, by omega⟩
          exact h.enterStep (Nat.le_of_succ_le_succ hle) f args
  | variant i tag payload =>
      simp only [Evaluator.callStep]
      cases Value.dispatch tag payload args with
      | ok selected => exact h.call hle selected.1 selected.2
      | error error => exact truncates_refl (fail _)
  | number | string | array | record | builtin | foreign =>
      cases n <;> cases m <;> exact hleaf

omit hle in
/-- A step looks into no evaluation that went too deep. -/
theorem step : few.step.Truncates many.step where
  term hle _ t := (h.formStep hle t.form).locate t.pos
  call hle callee args := h.callStep hle callee args

end Truncates

section

variable {n : Nat} {s : ScopeId} {t : Term} {callee : Value} {args : List Value}

/-- An evaluator in which every evaluation goes too deep. -/
def stopped : Evaluator :=
  ⟨fun _ _ _ => throw .tooDeep, fun _ _ _ => throw .tooDeep⟩

end

end Evaluator

/-! ## Limits -/

/-- How much of a limit on the recursion is taken up by a term and by a call, for as long as they are
evaluated. -/
structure Costs where
  term : Term → Nat
  call : Value → List Value → Nat
  term_pos (t : Term) : 0 < term t
  call_pos (callee : Value) (args : List Value) : 0 < call callee args

namespace Evaluator

variable (costs : Costs) (n : Nat)

end Evaluator

/-! ## Lower and higher limits -/

/-- Every evaluation takes up one. -/
def Costs.one : Costs :=
  ⟨fun _ => 1, fun _ _ => 1, fun _ => Nat.one_pos, fun _ _ => Nat.one_pos⟩

end VariantScript
