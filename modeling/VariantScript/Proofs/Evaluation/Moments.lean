import Mathlib.Logic.Relation
import VariantScript.Proofs.Evaluation.Remainders

/-!
# Moments of an evaluation

An evaluation consists of others: those of the parts of its term, one after the other as long as they
give values, the calls that it makes, and the bodies of the functions that are called.  A moment is
the start of one of them.  Every moment is the start of finitely many others, so that what is true of
a moment as soon as it is true of those that it starts is true of all of them.
-/

namespace VariantScript

open Syntax Eval

/-- The start of an evaluation: a term in a scope or a call, with the bound on the nesting of calls
that is left and the world at that time. -/
inductive Moment where
  | term (bound : Nat) (s : ScopeId) (t : Term) (w : World)
  | call (bound : Nat) (callee : Value) (args : List Value) (w : World)

namespace Moment

/-- The world in which the evaluation starts. -/
def world : Moment → World
  | term _ _ _ w | call _ _ _ w => w

/-- How the evaluation ends and the world that it leaves. -/
def run : Moment → Except Stop Value × World
  | term n s t w => (evaluate (callAt n) s t).run.run w
  | call n callee args w => (callAt n callee args).run.run w

/-- What decreases from a moment to those that it starts: fewer calls may nest in the body of a
called function; otherwise a call comes after the terms that it is made of, and parts are smaller. -/
noncomputable def rank : Moment → Nat × Nat × Nat
  | term n _ t _ => (n, 1, sizeOf t)
  | call n callee args _ => (n, 0, sizeOf callee + sizeOf args)

end Moment

/-! ## Starting -/

/-- The evaluation of terms one after the other starts a moment. -/
inductive AnyStarts (n : Nat) (s : ScopeId) : List Term → World → Moment → Prop where
  | head {t : Term} {ts : List Term} {w : World} : AnyStarts n s (t :: ts) w (.term n s t w)
  | tail {t : Term} {ts : List Term} {v : Value} {w w' : World} {b : Moment}
      (ht : Gives (evaluate (callAt n) s t) w v w') (h : AnyStarts n s ts w' b) :
      AnyStarts n s (t :: ts) w b

/-- The evaluation of fields one after the other starts a moment. -/
inductive FieldStarts (n : Nat) (s : ScopeId) : List Field → World → Moment → Prop where
  | head {pos : Option Position} {key : Key} {value : Term} {fs : List Field} {w : World} :
      FieldStarts n s (.mk pos key value :: fs) w (.term n s value w)
  | tail {pos : Option Position} {key : Key} {value : Term} {fs : List Field} {v : Value}
      {name : String} {w w' w'' : World} {b : Moment}
      (hvalue : Gives (evaluate (callAt n) s value) w v w') (hkey : Gives key.decode w' name w'')
      (h : FieldStarts n s fs w'' b) : FieldStarts n s (.mk pos key value :: fs) w b

/-- An evaluation starts another one right within itself. -/
inductive Moment.Starts : Moment → Moment → Prop where
  | first {n : Nat} {s : ScopeId} {pos : Option Position} {form : Form} {t : Term} {w : World}
      (hfirst : form.first? = some t)
      (hreturn : ∀ value, form = .returnValue value → w.isInCall s = true) :
      Starts (.term n s (.node pos form) w) (.term n s t w)
  | next {n : Nat} {s : ScopeId} {pos : Option Position} {form : Form} {t t' : Term} {v : Value}
      {w w' : World} (hfirst : form.first? = some t)
      (ht : Gives (evaluate (callAt n) s t) w v w') (hnext : form.next? v = some t') :
      Starts (.term n s (.node pos form) w) (.term n s t' w')
  | program {n : Nat} {s : ScopeId} {pos : Option Position} {body : List Term} {w w' : World}
      {b : Moment} (hhoist : Gives (hoist s body) w () w') (h : AnyStarts n s body w' b) :
      Starts (.term n s (.node pos (.program body)) w) b
  | block {n : Nat} {s inner : ScopeId} {pos : Option Position} {body : List Term}
      {w w' w'' : World} {b : Moment} (hscope : Gives (openScope (some s) false) w inner w')
      (hhoist : Gives (hoist inner body) w' () w'') (h : AnyStarts n inner body w'' b) :
      Starts (.term n s (.node pos (.block body)) w) b
  | array {n : Nat} {s : ScopeId} {pos : Option Position} {items : List Term} {w : World}
      {b : Moment} (h : AnyStarts n s items w b) : Starts (.term n s (.node pos (.array items)) w) b
  | record {n : Nat} {s : ScopeId} {pos : Option Position} {fields : List Field} {w : World}
      {b : Moment} (h : FieldStarts n s fields w b) :
      Starts (.term n s (.node pos (.record fields)) w) b
  | arguments {n : Nat} {s : ScopeId} {pos : Option Position} {callee : Term} {args : List Term}
      {f : Value} {w w' : World} {b : Moment}
      (hcallee : Gives (evaluate (callAt n) s callee) w f w') (h : AnyStarts n s args w' b) :
      Starts (.term n s (.node pos (.call callee args)) w) b
  | call {n : Nat} {s : ScopeId} {pos : Option Position} {callee : Term} {args : List Term}
      {f : Value} {vs : List Value} {w w' w'' : World}
      (hcallee : Gives (evaluate (callAt n) s callee) w f w')
      (hargs : Gives (evaluateAll (callAt n) s args) w' vs w'') :
      Starts (.term n s (.node pos (.call callee args)) w) (.call n f vs w'')
  | dispatch {n : Nat} {i : Identity} {tag : Tag} {payload branch : Value}
      {args rest : List Value} {w : World}
      (hdispatch : Value.dispatch tag payload args = .ok (branch, rest)) :
      Starts (.call n (.variant i tag payload) args w) (.call n branch rest w)
  | body {n : Nat} {i : Identity} {f : Closure} {args : List Value} {s : ScopeId}
      {w w' w'' : World} (hlength : args.length = f.params.length)
      (hscope : Gives (openScope (some f.scope) true) w s w')
      (hparams : Gives (bindItems s f.params args) w' () w'') :
      Starts (.call (n + 1) (.closure i f) args w) (.term n s f.body w'')

/-- An evaluation starts another one within itself, at any depth. -/
def Moment.LeadsTo : Moment → Moment → Prop :=
  Relation.ReflTransGen Moment.Starts

/-- A value is shown to the observer in the course of an evaluation. -/
def Moment.Shows (a : Moment) (v : Value) : Prop :=
  ∃ n w, a.LeadsTo (.call n (.builtin .debug) [v] w)

section

variable {n : Nat} {s : ScopeId} {w : World} {b : Moment}

/-- One of several terms is started. -/
theorem AnyStarts.eq_term {ts : List Term} (h : AnyStarts n s ts w b) :
    ∃ t ∈ ts, ∃ w', b = .term n s t w' := by
  induction h with
  | head => exact ⟨_, .head _, _, rfl⟩
  | tail _ _ ih =>
      obtain ⟨t, ht, w', rfl⟩ := ih
      exact ⟨t, .tail _ ht, w', rfl⟩

/-- The value of one of several fields is started. -/
theorem FieldStarts.eq_term {fs : List Field} (h : FieldStarts n s fs w b) :
    ∃ pos key t, Syntax.Field.mk pos key t ∈ fs ∧ ∃ w', b = .term n s t w' := by
  induction h with
  | head => exact ⟨_, _, _, .head _, _, rfl⟩
  | tail _ _ _ ih =>
      obtain ⟨pos, key, t, ht, w', rfl⟩ := ih
      exact ⟨pos, key, t, .tail _ ht, w', rfl⟩

end

namespace Moment

variable {a b c : Moment} {v : Value}

theorem Starts.rank_lt (h : a.Starts b) : WellFoundedRelation.rel b.rank a.rank := by
  have smaller {m k i j : Nat} (hij : i < j) :
      WellFoundedRelation.rel ((m, k, i) : Nat × Nat × Nat) (m, k, j) :=
    .right _ (.right _ hij)
  cases h with
  | first hfirst =>
      have := Form.sizeOf_first hfirst
      exact smaller (by simp only [Term.node.sizeOf_spec]; omega)
  | next _ _ hnext =>
      have := Form.sizeOf_next hnext
      exact smaller (by simp only [Term.node.sizeOf_spec]; omega)
  | program _ h | block _ _ h | array h | arguments _ h =>
      obtain ⟨t, ht, w, rfl⟩ := h.eq_term
      have := List.sizeOf_lt_of_mem ht
      exact smaller (by simp; omega)
  | record h =>
      obtain ⟨pos, key, t, ht, w, rfl⟩ := h.eq_term
      have := List.sizeOf_lt_of_mem ht
      simp only [Syntax.Field.mk.sizeOf_spec] at this
      exact smaller (by simp; omega)
  | call => exact .right _ (.left _ _ Nat.zero_lt_one)
  | dispatch hdispatch => exact smaller (Value.sizeOf_dispatch_lt hdispatch)
  | body => exact .left _ _ (Nat.lt_succ_self _)

/-- What is true of a moment if it is true of the moments that it starts is true of all moments. -/
theorem induction {P : Moment → Prop} (step : ∀ a, (∀ b, a.Starts b → P b) → P a) (a : Moment) :
    P a :=
  step a fun b _ => induction step b
termination_by a.rank
decreasing_by exact Starts.rank_lt ‹_›

theorem Starts.shows (h : a.Starts b) (hv : b.Shows v) : a.Shows v := by
  obtain ⟨n, w, hleads⟩ := hv
  exact ⟨n, w, .head h hleads⟩

end Moment

/-! ## Calls -/

section

variable (n : Nat) (i : Identity) (args : List Value)

theorem callAt_variant (tag : Tag) (payload : Value) :
    callAt n (.variant i tag payload) args =
      match Value.dispatch tag payload args with
      | .ok (branch, rest) => callAt n branch rest
      | .error e => Eval.fail (.dispatch e) := by
  cases n <;> unfold callAt applyValue <;> rw [Value.resolve] <;> split <;> rename_i h <;>
    split at h <;> simp_all

theorem callAt_succ_closure (f : Closure) :
    callAt (n + 1) (.closure i f) args = enter (callAt n) f args := by
  rw [callAt, applyValue, Value.resolve]
  intro _ _ _ h
  cases h

theorem callAt_zero_closure (f : Closure) :
    callAt 0 (.closure i f) args = throw .tooDeep := by
  rw [callAt, applyValue, Value.resolve]
  intro _ _ _ h
  cases h

theorem callAt_builtin (operation : Builtin) :
    callAt n (.builtin operation) args = callBuiltin operation args := by
  cases n <;> unfold callAt applyValue <;> simp only [Value.resolve]

end

end VariantScript
