import VariantScript.Proofs.SideBySide.Worlds

/-!
# Operations of two runs side by side

Two evaluations run in step if they take corresponding worlds to corresponding worlds and end alike.
They run side by side if they run in step or if the second stops before the first does: because calls
may nest less deeply in it, or because its observer fails on a value that is shown.  Up to there both
have done the same.

Every operation runs in step with itself on corresponding values, but for showing a value.
Evaluations that run side by side can be put together as long as what follows only adds events.
-/

namespace VariantScript

open Syntax

/-! ## Ends of evaluations -/

/-- Causes of faults of the same kind and with the same words. -/
structure Cause.Alike (c c' : Cause) : Prop where
  message : c'.message = c.message
  kind : c'.kind = c.kind
  defect? : c'.defect? = c.defect?

namespace Cause

theorem Alike.refl (c : Cause) : c.Alike c :=
  ⟨rfl, rfl, rfl⟩

/-- The causes that show one value. -/
inductive ShowsOne : (Value → Cause) → Prop where
  | expectsNumbers {context : String} : ShowsOne (expectsNumbers context)
  | expectsBoolean {context : String} : ShowsOne (expectsBoolean context)
  | notAnArray : ShowsOne notAnArray
  | notARecord : ShowsOne notARecord
  | noProperty {name : String} : ShowsOne (noProperty name)
  | indexNotWhole : ShowsOne indexNotWhole
  | keyNotString : ShowsOne keyNotString
  | cannotIndex : ShowsOne cannotIndex
  | thrown : ShowsOne thrown

/-- The causes that show two values. -/
inductive ShowsTwo : (Value → Value → Cause) → Prop where
  | cannotAdd : ShowsTwo cannotAdd
  | cannotCompare {op : String} : ShowsTwo (cannotCompare · op ·)

section

variable {m : Matching} {v v' u u' : Value}

theorem ShowsOne.alike {cause : Value → Cause} (hcause : ShowsOne cause) (h : v.Matches m v') :
    (cause v).Alike (cause v') := by
  cases hcause <;>
  · constructor
    · unfold message
      dsimp only
      rw [h.display]
    · rfl
    · exact h.defect?

theorem ShowsTwo.alike {cause : Value → Value → Cause} (hcause : ShowsTwo cause)
    (h : v.Matches m v') (hu : u.Matches m u') : (cause v u).Alike (cause v' u') := by
  cases hcause <;>
  · constructor
    · unfold message
      dsimp only
      rw [h.display, hu.display]
    · rfl
    · unfold defect?
      dsimp only
      rw [h.defect?, hu.defect?]

theorem alike_notAFunction (h : v.Matches m v') : (notAFunction v).Alike (notAFunction v') := by
  refine ⟨?_, rfl, rfl⟩
  unfold message
  dsimp only
  rw [h.describe]

end

end Cause

/-- Stops that correspond: for a fault of the same kind with the same words at the same place, with a
value that corresponds, or for the same reason. -/
inductive Stop.Matches (m : Matching) : Stop → Stop → Prop where
  | fault {f f' : Fault} (hcause : f.cause.Alike f'.cause) (hlocation : f'.location = f.location) :
      Matches m (.fault f) (.fault f')
  | returned {v v' : Value} (hv : v.Matches m v') : Matches m (.returned v) (.returned v')
  | tooDeep : Matches m .tooDeep .tooDeep
  | breakdown {b : Breakdown} : Matches m (.breakdown b) (.breakdown b)

theorem Stop.Matches.mono {m m' : Matching} {e e' : Stop} (h : e.Matches m e')
    (hle : m.Within m') : e.Matches m' e' := by
  cases h with
  | fault hcause hlocation => exact .fault hcause hlocation
  | returned hv => exact .returned (hv.mono hle)
  | tooDeep => exact .tooDeep
  | breakdown => exact .breakdown

theorem ExceptRel.mono {m m' : Matching} {r r' : Except Stop Value}
    (h : ExceptRel (Stop.Matches m) (Value.Matches m) r r') (hle : m.Within m') :
    ExceptRel (Stop.Matches m') (Value.Matches m') r r' :=
  h.imp (fun _ _ he => he.mono hle) fun _ _ hv => hv.mono hle

/-! ## Events that are added -/

/-- An evaluation that keeps the events so far. -/
class Eval.Adds {α : Type} (act : Eval α) : Prop where
  events (w : World) : w.events.toList <+: (act.run.run w).2.events.toList

namespace Eval

section

variable {α β : Type} {act : Eval α}

theorem Adds.of_affects {own : ScopeId} {names : List String}
    (h : ∀ w, Affects own names (fun _ => True) act w) : Adds act where
  events w := by
    obtain ⟨added, hadded, -⟩ := (h w).events
    exact ⟨added, hadded.symm⟩

theorem Adds.of_quiet (h : Quiet act) : Adds act where
  events w := by
    obtain ⟨next, hnext⟩ := h w
    exact hnext ▸ List.prefix_rfl

instance {k : α → Eval β} [hact : Adds act] [hk : ∀ x, Adds (k x)] : Adds (act >>= k) where
  events w := by
    have hbefore := hact.events w
    rw [run_bind]
    generalize act.run.run w = r at hbefore
    obtain ⟨_ | x, w'⟩ := r
    · exact hbefore
    · exact hbefore.trans ((hk x).events w')

instance {c : Prop} [Decidable c] {other : Eval α} [hact : Adds act] [hother : Adds other] :
    Adds (if c then act else other) := by
  split
  · exact hact
  · exact hother

instance (x : α) : Adds (pure x : Eval α) := .of_quiet (quiet_pure x)

instance (e : Stop) : Adds (throw e : Eval α) := .of_quiet (quiet_throw e)

instance (cause : Cause) : Adds (fail cause : Eval α) := .of_quiet (quiet_fail cause)

instance (e : Except Cause α) : Adds (ofExcept e) := .of_quiet (quiet_ofExcept e)

instance (x : Float) : Adds (makeNumber x) := .of_quiet (quiet_makeNumber x)

instance (items : List Value) : Adds (makeArray items) := .of_quiet (quiet_makeArray items)

instance (slots : Slots) : Adds (makeRecord slots) := .of_quiet (quiet_makeRecord slots)

instance (key : Key) : Adds key.decode := .of_quiet (quiet_decodeKey key)

instance (v : Value) (name : String) : Adds (getField v name) := .of_quiet (quiet_getField v name)

instance (v i : Value) : Adds (getIndex v i) := .of_quiet (quiet_getIndex v i)

instance (op : BinaryOp) (l r : Value) : Adds (applyBinary op l r) :=
  .of_quiet (quiet_applyBinary op l r)

instance (s : ScopeId) (p : Pattern) (v : Value) : Adds (bindPattern s p v) :=
  .of_affects fun w => affects_bindPattern s p v w

instance (n : Nat) (s : ScopeId) (t : Term) : Adds (evaluate (callAt n) s t) :=
  .of_affects fun w => affects_evaluate n s t w

instance (n : Nat) (s : ScopeId) (v : Value) (ts : List Term) :
    Adds (evaluateBody (callAt n) s v ts) :=
  .of_affects fun _ => affects_evaluateBody v fun t w' _ => affects_evaluate n s t w'

instance (n : Nat) (s : ScopeId) (ts : List Term) : Adds (evaluateAll (callAt n) s ts) :=
  .of_affects fun _ => affects_evaluateAll fun t w' _ => affects_evaluate n s t w'

instance (n : Nat) (s : ScopeId) (fs : List Field) (slots : Slots) :
    Adds (evaluateFields (callAt n) s fs slots) :=
  .of_affects fun _ => affects_evaluateFields slots fun t w' _ => affects_evaluate n s t w'

instance (n : Nat) (callee : Value) (args : List Value) : Adds (callAt n callee args) :=
  .of_affects fun w =>
    Affects.mono (Moment.grows (.call n callee args w) ⟨0⟩) (List.Sublist.refl _) fun _ _ => trivial

end

end Eval

/-! ## Running side by side -/

namespace Start

variable {α α' β β' : Type}

/-- Two ends of evaluations in corresponding worlds. -/
structure Together (b : Start) (p : Pair) (good : Pair → α → α' → Prop)
    (r : Except Stop α × World) (r' : Except Stop α' × World) : Prop where
  before : p.Before ⟨r.2, r'.2⟩
  holds : b.Holds ⟨r.2, r'.2⟩
  result : ExceptRel (Stop.Matches (b.matching ⟨r.2, r'.2⟩)) (good ⟨r.2, r'.2⟩) r.1 r'.1

/-- The second run stops before the first does, at a point to which both have come: since calls nest
too deeply, or since its observer fails on the next value that is shown.  The events of the first run
at its end go on from there. -/
inductive Quits (b : Start) (p : Pair) (events : List Event) : Stop → World → Prop where
  | tooDeep {q : Pair} (hlax : b.lax) (hle : p.Before q) (hq : b.Holds q)
      (hevents : q.left.events.toList <+: events) : Quits b p events .tooDeep q.right
  | observer {q : Pair} {text : String} {v v' : Value} {location : Option Position}
      (hfails : b.observer'.failure? = some text) (hother : b.observer.failure? = none)
      (hle : p.Before q) (hq : b.Holds q) (hv : v.Matches (b.matching q) v')
      (hevents : q.left.events.toList ++ [b.observer.event v] <+: events) :
      Quits b p events (.fault ⟨.observerFailed text, location⟩) (q.right.note (.observed v'))

/-- Two evaluations run in step from corresponding worlds. -/
def InStep (b : Start) (good : Pair → α → α' → Prop) (act : Eval α) (act' : Eval α') (p : Pair) :
    Prop :=
  b.Holds p → b.Together p good (act.run.run p.left) (act'.run.run p.right)

/-- Two evaluations run side by side from corresponding worlds: in step, unless the second stops
before the first does. -/
def SideBySide (b : Start) (good : Pair → α → α' → Prop) (act : Eval α) (act' : Eval α')
    (p : Pair) : Prop :=
  b.Holds p → b.Together p good (act.run.run p.left) (act'.run.run p.right) ∨
    ∃ e, (act'.run.run p.right).1 = .error e ∧
      b.Quits p (act.run.run p.left).2.events.toList e (act'.run.run p.right).2

/-- Corresponding values. -/
def value (b : Start) (p : Pair) (v v' : Value) : Prop :=
  v.Matches (b.matching p) v'

/-- Corresponding values in the same order. -/
def values (b : Start) (p : Pair) : List Value → List Value → Prop :=
  List.Forall₂ (Value.Matches (b.matching p))

/-- Corresponding fields. -/
def fields (b : Start) (p : Pair) (slots slots' : Slots) : Prop :=
  slots.Matches (b.matching p) slots'

/-- The same in both runs. -/
def same (_ : Pair) (x x' : α) : Prop :=
  x' = x

variable {b : Start} {p q : Pair} {good : Pair → α → α' → Prop} {good' : Pair → β → β' → Prop}
  {act : Eval α} {act' : Eval α'} {k : α → Eval β} {k' : α' → Eval β'}

/-! ## Putting evaluations together -/

theorem InStep.sideBySide (h : b.InStep good act act' p) : b.SideBySide good act act' p :=
  fun hp => .inl (h hp)

theorem Together.after {good : Pair → α → α' → Prop} {r : Except Stop α × World}
    {r' : Except Stop α' × World} (hle : p.Before q) (h : b.Together q good r r') :
    b.Together p good r r' :=
  ⟨hle.trans h.before, h.holds, h.result⟩

theorem Quits.after {events events' : List Event} {e : Stop} {w : World} (hle : p.Before q)
    (hevents : events <+: events') (h : b.Quits q events e w) : b.Quits p events' e w := by
  cases h with
  | tooDeep hlax hle' hq h => exact .tooDeep hlax (hle.trans hle') hq (h.trans hevents)
  | observer hfails hother hle' hq hv h =>
      exact .observer hfails hother (hle.trans hle') hq hv (h.trans hevents)

/-- Where both observers behave alike, only the nesting of calls stops the second run. -/
theorem Quits.eq_tooDeep {events : List Event} {e : Stop} {w : World}
    (h : b.Quits p events e w) (hsame : b.observer'.failure? = b.observer.failure?) :
    b.lax ∧ e = .tooDeep := by
  cases h with
  | tooDeep hlax => exact ⟨hlax, rfl⟩
  | observer hfails hother =>
      rw [hfails, hother] at hsame
      cases hsame

/-- Where nothing stops the second run before the first, both go in step. -/
theorem SideBySide.inStep (h : b.SideBySide good act act' p)
    (hsame : b.observer'.failure? = b.observer.failure?) (hlax : ¬ b.lax) :
    b.InStep good act act' p := by
  intro hp
  rcases h hp with htogether | ⟨e, -, hquits⟩
  · exact htogether
  · exact absurd (hquits.eq_tooDeep hsame).1 hlax

/-- How two evaluations go on: they end alike here, or what follows takes both further. -/
theorem InStep.run_bind {R : Pair → Except Stop β × World → Except Stop β' × World → Prop}
    (h : b.InStep good act act' p) (hp : b.Holds p)
    (hstop : ∀ r r', b.Together p good' r r' → R p r r')
    (hafter : ∀ q r r', p.Before q → R q r r' → R p r r')
    (hk : ∀ q x x', p.Before q → b.Holds q → good q x x' →
      R q ((k x).run.run q.left) ((k' x').run.run q.right)) :
    R p ((act >>= k).run.run p.left) ((act' >>= k').run.run p.right) := by
  obtain ⟨hle, hq, hresult⟩ := h hp
  rw [Eval.run_bind, Eval.run_bind]
  generalize act.run.run p.left = r, act'.run.run p.right = r' at hle hq hresult
  obtain ⟨result, w⟩ := r
  obtain ⟨result', w'⟩ := r'
  cases hresult with
  | error he => exact hstop _ _ ⟨hle, hq, .error he⟩
  | ok hx => exact hafter ⟨w, w'⟩ _ _ hle (hk _ _ _ hle hq hx)

theorem InStep.bind (h : b.InStep good act act' p)
    (hk : ∀ q x x', p.Before q → good q x x' → b.InStep good' (k x) (k' x') q) :
    b.InStep good' (act >>= k) (act' >>= k') p :=
  fun hp => h.run_bind hp (fun _ _ htogether => htogether)
    (fun _ _ _ hle htogether => htogether.after hle) fun q x x' hle hq hx => hk q x x' hle hx hq

theorem InStep.bind_side (h : b.InStep good act act' p)
    (hk : ∀ q x x', p.Before q → good q x x' → b.SideBySide good' (k x) (k' x') q) :
    b.SideBySide good' (act >>= k) (act' >>= k') p := by
  intro hp
  refine h.run_bind hp (R := fun p r r' => b.Together p good' r r' ∨
    ∃ e, r'.1 = .error e ∧ b.Quits p r.2.events.toList e r'.2) (fun _ _ htogether => .inl htogether)
    (fun q r r' hle hends => ?_) fun q x x' hle hq hx => hk q x x' hle hx hq
  rcases hends with htogether | ⟨e, he, hquits⟩
  · exact .inl (htogether.after hle)
  · exact .inr ⟨e, he, hquits.after hle List.prefix_rfl⟩

/-- If the second run has stopped, what follows in the first one only adds events. -/
theorem SideBySide.bind [hadds : ∀ x, Eval.Adds (k x)] (h : b.SideBySide good act act' p)
    (hk : ∀ q x x', p.Before q → good q x x' → b.SideBySide good' (k x) (k' x') q) :
    b.SideBySide good' (act >>= k) (act' >>= k') p := by
  intro hp
  rcases h hp with htogether | ⟨e, he, hquits⟩
  · exact InStep.bind_side (fun _ => htogether) hk hp
  · refine .inr ⟨e, ?_⟩
    rw [Eval.run_bind, Eval.run_bind]
    generalize act.run.run p.left = r, act'.run.run p.right = r' at he hquits
    obtain ⟨result, w⟩ := r
    obtain ⟨result', w'⟩ := r'
    dsimp only at he
    subst he
    refine ⟨rfl, ?_⟩
    cases result with
    | error => exact hquits
    | ok x => exact hquits.after (.refl p) ((hadds x).events w)

theorem inStep_pure {x : α} {x' : α'} (h : good p x x') : b.InStep good (pure x) (pure x') p :=
  fun hp => ⟨.refl p, hp, .ok h⟩

theorem inStep_throw {e e' : Stop} (h : e.Matches (b.matching p) e') :
    b.InStep good (throw e) (throw e') p :=
  fun hp => ⟨.refl p, hp, .error h⟩

theorem InStep.of_holds (h : b.Holds p → b.InStep good act act' p) : b.InStep good act act' p :=
  fun hp => h hp hp

theorem SideBySide.of_holds (h : b.Holds p → b.SideBySide good act act' p) :
    b.SideBySide good act act' p :=
  fun hp => h hp hp

theorem InStep.get_bind {k : World → Eval α} {k' : World → Eval α'}
    (h : b.Holds p → b.InStep good (k p.left) (k' p.right) p) :
    b.InStep good (get >>= k) (get >>= k') p :=
  fun hp => h hp hp

theorem SideBySide.get_bind {k : World → Eval α} {k' : World → Eval α'}
    (h : b.Holds p → b.SideBySide good (k p.left) (k' p.right) p) :
    b.SideBySide good (get >>= k) (get >>= k') p :=
  fun hp => h hp hp

/-- Both runs only change their worlds. -/
theorem inStep_modifyGet {g : World → α × World} {g' : World → α' × World}
    (h : b.Holds p → p.Before ⟨(g p.left).2, (g' p.right).2⟩ ∧
      b.Holds ⟨(g p.left).2, (g' p.right).2⟩ ∧
      good ⟨(g p.left).2, (g' p.right).2⟩ (g p.left).1 (g' p.right).1) :
    b.InStep good (modifyGet g) (modifyGet g') p := by
  intro hp
  obtain ⟨hle, hq, hx⟩ := h hp
  exact ⟨hle, hq, .ok hx⟩

/-- Places are given to faults in the same way. -/
theorem matches_located {m : Matching} {R : α → α' → Prop} {r : Except Stop α}
    {r' : Except Stop α'} (h : ExceptRel (Stop.Matches m) R r r') (pos : Option Position) :
    ExceptRel (Stop.Matches m) R (Eval.located pos r) (Eval.located pos r') := by
  cases h with
  | ok hx => exact .ok hx
  | error he =>
      cases he with
      | @fault f f' hcause hlocation =>
          refine .error (.fault ?_ ?_)
          · rw [Eval.cause_locate, Eval.cause_locate]
            exact hcause
          · unfold Fault.locate
            rw [hlocation]
            split
            · exact hlocation
            · rfl
      | returned hv => exact .error (.returned hv)
      | tooDeep => exact .error .tooDeep
      | breakdown => exact .error .breakdown

theorem InStep.locate (h : b.InStep good act act' p) (pos : Option Position) :
    b.InStep good (Eval.locate pos act) (Eval.locate pos act') p := by
  intro hp
  obtain ⟨hle, hq, hresult⟩ := h hp
  rw [Eval.run_locate, Eval.run_locate]
  exact ⟨hle, hq, matches_located hresult pos⟩

theorem SideBySide.locate (h : b.SideBySide good act act' p) (pos : Option Position) :
    b.SideBySide good (Eval.locate pos act) (Eval.locate pos act') p := by
  intro hp
  rcases h hp with htogether | ⟨e, he, hquits⟩
  · exact .inl (InStep.locate (fun _ => htogether) pos hp)
  · refine .inr ?_
    rw [Eval.run_locate, Eval.run_locate, he]
    -- The place of a failure of the observer may be filled in on the way out.
    generalize (act'.run.run p.right).2 = w at hquits
    cases hquits with
    | tooDeep hlax hle hq hevents => exact ⟨_, rfl, .tooDeep hlax hle hq hevents⟩
    | @observer q text v v' location hfails hother hle hq hv hevents =>
        cases location with
        | none => exact ⟨_, rfl, .observer hfails hother hle hq hv hevents⟩
        | some place => exact ⟨_, rfl, .observer hfails hother hle hq hv hevents⟩

/-- Both runs take the same branch. -/
theorem related_ite {R : α → β → Prop} {c c' : Prop} [Decidable c] [Decidable c'] {x y : α}
    {x' y' : β} (hc : c' ↔ c) (h : c → R x x') (hother : ¬ c → R y y') :
    R (if c then x else y) (if c' then x' else y') := by
  by_cases hyes : c
  · rw [if_pos hyes, if_pos (hc.2 hyes)]
    exact h hyes
  · rw [if_neg hyes, if_neg fun hyes' => hyes (hc.1 hyes')]
    exact hother hyes

theorem SideBySide.ite {c c' : Prop} [Decidable c] [Decidable c'] {other : Eval α}
    {other' : Eval α'} (hc : c' ↔ c) (h : c → b.SideBySide good act act' p)
    (hother : ¬ c → b.SideBySide good other other' p) :
    b.SideBySide good (if c then act else other) (if c' then act' else other') p :=
  related_ite (R := fun x x' => b.SideBySide good x x' p) hc h hother

theorem InStep.ite {c c' : Prop} [Decidable c] [Decidable c'] {other : Eval α}
    {other' : Eval α'} (hc : c' ↔ c) (h : c → b.InStep good act act' p)
    (hother : ¬ c → b.InStep good other other' p) :
    b.InStep good (if c then act else other) (if c' then act' else other') p :=
  related_ite (R := fun x x' => b.InStep good x x' p) hc h hother

/-! ## Failing -/

theorem inStep_breakDown (d : Breakdown) :
    b.InStep good (Eval.breakDown d) (Eval.breakDown d) p :=
  inStep_throw .breakdown

theorem inStep_fail {c c' : Cause} (h : c.Alike c') :
    b.InStep good (Eval.fail c) (Eval.fail c') p := by
  unfold Eval.fail
  rw [h.defect?]
  cases c.defect? with
  | some d => exact inStep_breakDown d
  | none => exact inStep_throw (.fault h rfl)

theorem inStep_ofExcept {e : Except Cause α} {e' : Except Cause α'}
    (h : ExceptRel Cause.Alike (good p) e e') :
    b.InStep good (Eval.ofExcept e) (Eval.ofExcept e') p := by
  cases h with
  | ok hx => exact inStep_pure hx
  | error hc => exact inStep_fail hc

/-! ## New objects -/

/-- A new object with a new identity in both runs. -/
theorem inStep_fresh {g g' : Identity → Value}
    (h : ∀ q i j, p.Before q → (b.matching q).ids i j → b.value q (g i) (g' j)) :
    b.InStep b.value (do return g (← Eval.freshIdentity)) (do return g' (← Eval.freshIdentity))
      p := by
  have hid : b.InStep (fun q i j => (b.matching q).ids i j) Eval.freshIdentity Eval.freshIdentity
      p := inStep_modifyGet fun hp => by
    obtain ⟨hle, hq⟩ := hp.spend 1
    exact ⟨hle, hq, hp.fresh Nat.one_pos⟩
  exact hid.bind fun q i j hle hid => inStep_pure (h q i j hle hid)

theorem inStep_makeNumber (x : Float) :
    b.InStep b.value (Eval.makeNumber x) (Eval.makeNumber x) p :=
  inStep_fresh fun _ _ _ _ hid => .number hid

theorem inStep_makeArray {items items' : List Value} (h : b.values p items items') :
    b.InStep b.value (Eval.makeArray items) (Eval.makeArray items') p :=
  inStep_fresh fun _ _ _ hle hid => Value.matches_array hid (Value.Matches.allMono h (within hle))

theorem inStep_makeRecord {slots slots' : Slots} (h : b.fields p slots slots') :
    b.InStep b.value (Eval.makeRecord slots) (Eval.makeRecord slots') p :=
  inStep_fresh fun _ _ _ hle hid => Value.matches_record hid (h.mono (within hle))

theorem inStep_makeClosure {f g : Closure} (h : f.Matches (b.matching p) g) :
    b.InStep b.value (Eval.makeClosure f) (Eval.makeClosure g) p :=
  inStep_fresh fun _ _ _ hle hid => .closure hid (h.mono (within hle))

theorem matches_listFrom {m : Matching} (hm : m.Fixes) {next next' : Nat} {vs vs' : List Value}
    (h : List.Forall₂ (Value.Matches m) vs vs')
    (hids : ∀ i < 2 * vs.length, m.ids ⟨next + i⟩ ⟨next' + i⟩) :
    (Value.listFrom next vs).2 = next + 2 * vs.length ∧
      (Value.listFrom next' vs').2 = next' + 2 * vs.length ∧
      (Value.listFrom next vs).1.Matches m (Value.listFrom next' vs').1 := by
  induction h with
  | nil => exact ⟨rfl, rfl, Value.matches_emptyList hm⟩
  | @cons v v' vs vs' hv hvs ih =>
      simp only [List.length_cons] at hids
      obtain ⟨hnext, hnext', hrest⟩ := ih fun i hi => hids i (by omega)
      refine ⟨?_, ?_, ?_⟩
      · simp only [Value.listFrom, hnext, List.length_cons]
        omega
      · simp only [Value.listFrom, hnext', List.length_cons]
        omega
      · simp only [Value.listFrom, hnext, hnext', Value.cell]
        have hpair : List.Forall₂ (Value.Matches m) [v, _] [v', _] := .cons hv (.cons hrest .nil)
        exact .variant (hids (2 * vs.length + 1) (by omega))
          (Value.matches_array (hids (2 * vs.length) (by omega)) hpair)

theorem inStep_makeList (texts : List String) :
    b.InStep b.value (Eval.makeList (texts.map Value.string))
      (Eval.makeList (texts.map Value.string)) p := by
  refine inStep_modifyGet fun hp => ?_
  obtain ⟨hle, hq⟩ := hp.spend (2 * texts.length)
  have hstrings : List.Forall₂
      (Value.Matches (b.matching ⟨p.left.spend (2 * texts.length), p.right.spend (2 * texts.length)⟩))
      (texts.map Value.string) (texts.map Value.string) :=
    List.forall₂_same.2 fun v hv => by
      obtain ⟨text, -, rfl⟩ := List.mem_map.1 hv
      exact .string
  obtain ⟨hnext, hnext', hlist⟩ := matches_listFrom hq.fixes hstrings fun i hi =>
    hp.fresh (by simpa using hi)
  simp only [List.length_map] at hnext hnext'
  simp only [hnext, hnext']
  exact ⟨hle, hq, hlist⟩

/-! ## Scopes and names -/

/-- A scope that both runs open inside scopes that stand for each other sees what these see. -/
theorem inStep_openScope {o o' : ScopeId} (ho : b.Linked p o o') {isCall : Bool}
    (hcall : b.Holds p → isCall = true ∨ p.right.isInCall o' = p.left.isInCall o) :
    b.InStep (fun q s s' => b.Opened q s s' ∧ ∀ name, b.Sees q name o o' → b.Sees q name s s')
      (Eval.openScope (some o) isCall) (Eval.openScope (some o') isCall) p := by
  refine inStep_modifyGet fun hp => ?_
  obtain ⟨hle, hq, hopened⟩ := hp.push ho (hcall hp)
  refine ⟨hle, hq, hopened, fun name hsees => ?_⟩
  exact .inside hopened (Array.getElem?_push_size) (Array.getElem?_push_size) rfl rfl hsees

theorem inStep_define {s s' : ScopeId} (hs : b.Opened p s s') (name : String) {v v' : Value}
    (hv : b.value p v v') :
    b.InStep (fun _ _ _ => True) (Eval.define s name v) (Eval.define s' name v') p := by
  refine InStep.get_bind fun hp => ?_
  obtain ⟨scope, scope', hmatch⟩ := hp.opened hs
  simp only [hmatch.left, hmatch.right, hmatch.vars.has]
  refine .ite Iff.rfl (fun _ => inStep_fail (.refl _)) fun _ => ?_
  refine inStep_modifyGet fun hp => ?_
  obtain ⟨hle, hq⟩ := hp.bind hs name hv
  exact ⟨hle, hq, trivial⟩

theorem inStep_resolve {s s' : ScopeId} {name : String} (hs : b.Sees p name s s') :
    b.InStep b.value (Eval.resolve s name) (Eval.resolve s' name) p := by
  refine InStep.get_bind fun hp => ?_
  have hvalues := hp.lookup? hs
  generalize p.left.lookup? s name = left, p.right.lookup? s' name = right at hvalues
  cases hvalues with
  | none => exact inStep_fail (.refl _)
  | some hv => exact inStep_pure hv

end Start

end VariantScript
