import VariantScript.Proofs.Evaluation.Endings
import VariantScript.Proofs.Places.Values

/-!
# Operations do not depend on places

An evaluation forgets places if it does the same without them: in the world without places it ends in
the same result and the same world, both without places.  Every operation does, and evaluations that
do can be put together.
-/

namespace VariantScript

open Syntax

namespace Eval

variable {α β : Type} {f : α → α} {f' : β → β} {act act' : Eval α}

/-- What an evaluation ends in without places, where `f` takes them from its result. -/
def unplacedEnd (f : α → α) : Except Stop α → Except Stop α
  | .ok x => .ok (f x)
  | .error e => .error e.unplaced

/-- In the world without places the second evaluation does what the first does, without places. -/
def Forgets (f : α → α) (act act' : Eval α) : Prop :=
  ∀ w : World, act'.run.run w.unplaced =
    (unplacedEnd f (act.run.run w).1, (act.run.run w).2.unplaced)

/-! ## Putting evaluations together -/

theorem forgets_pure (f : α → α) (x : α) : Forgets f (pure x) (pure (f x)) :=
  fun _ => rfl

theorem forgets_throw (e : Stop) : Forgets f (throw e) (throw e.unplaced) :=
  fun _ => rfl

theorem Forgets.bind {k k' : α → Eval β} (h : Forgets f act act')
    (hk : ∀ x, Forgets f' (k x) (k' (f x))) : Forgets f' (act >>= k) (act' >>= k') := by
  intro w
  rw [run_bind, run_bind, h w]
  rcases act.run.run w with ⟨_ | x, w'⟩
  · rfl
  · exact hk x w'

theorem Forgets.ite {c c' : Prop} [Decidable c] [Decidable c'] {other other' : Eval α}
    (hc : c' ↔ c) (h : c → Forgets f act act') (hother : ¬ c → Forgets f other other') :
    Forgets f (if c then act else other) (if c' then act' else other') := by
  by_cases hyes : c
  · rw [if_pos hyes, if_pos (hc.2 hyes)]
    exact h hyes
  · rw [if_neg hyes, if_neg fun hyes' => hyes (hc.1 hyes')]
    exact hother hyes

theorem Forgets.get_bind {k k' : World → Eval α} (hk : ∀ w, Forgets f (k w) (k' w.unplaced)) :
    Forgets f (get >>= k) (get >>= k') :=
  fun w => hk w w

theorem forgets_modifyGet {g g' : World → α × World}
    (hg : ∀ w, g' w.unplaced = (f (g w).1, (g w).2.unplaced)) :
    Forgets f (modifyGet g) (modifyGet g') := by
  intro w
  have hrun (g : World → α × World) (w : World) :
      ((modifyGet g : Eval α).run.run w) = (.ok (g w).1, (g w).2) := rfl
  rw [hrun, hrun, hg]
  rfl

theorem Forgets.locate (h : Forgets f act act') (pos : Option Position) :
    Forgets f (locate pos act) (locate (pos.map Position.unplaced) act') := by
  intro w
  rw [run_locate, run_locate, h w]
  refine congrArg (·, (act.run.run w).2.unplaced) ?_
  rcases (act.run.run w).1 with (fault | _ | _ | _) | _
  · exact congrArg (fun f => Except.error (Stop.fault f)) (fault.unplaced_locate pos).symm
  all_goals rfl

/-! ## Failing -/

theorem forgets_breakDown (b : Breakdown) : Forgets f (breakDown b) (breakDown b) :=
  forgets_throw (.breakdown b)

theorem forgets_fail (cause : Cause) : Forgets f (fail cause) (fail cause.unplaced) := by
  unfold fail
  rw [Cause.defect?_unplaced]
  cases cause.defect? with
  | some b => exact forgets_breakDown b
  | none => exact forgets_throw (.fault ⟨cause, none⟩)

/-- An answer without places, where `f` takes them from what is answered. -/
def unplacedAnswer (f : α → α) : Except Cause α → Except Cause α
  | .ok x => .ok (f x)
  | .error cause => .error cause.unplaced

theorem forgets_ofExcept {e e' : Except Cause α} (h : e' = unplacedAnswer f e) :
    Forgets f (ofExcept e) (ofExcept e') := by
  obtain rfl := h
  cases e with
  | ok x => exact forgets_pure f x
  | error cause => exact forgets_fail cause

/-! ## Objects, scopes and names -/

theorem forgets_makeNumber (x : Float) : Forgets Value.unplaced (makeNumber x) (makeNumber x) :=
  fun _ => rfl

theorem forgets_makeArray (items : List Value) :
    Forgets Value.unplaced (makeArray items) (makeArray (items.map Value.unplaced)) := by
  intro w
  rw [← Value.unplacedAll_eq]
  rfl

theorem forgets_makeRecord (slots : Slots) :
    Forgets Value.unplaced (makeRecord slots) (makeRecord slots.unplaced) := by
  intro w
  rw [← Slots.unplaced_eq]
  rfl

theorem forgets_makeClosure (f : Closure) :
    Forgets Value.unplaced (makeClosure f) (makeClosure f.unplaced) :=
  fun _ => rfl

theorem forgets_makeList (elements : List Value) :
    Forgets Value.unplaced (makeList elements) (makeList (elements.map Value.unplaced)) := by
  refine forgets_modifyGet fun w => ?_
  dsimp only
  rw [World.nextSerial_unplaced, Value.unplaced_listFrom]
  rfl

theorem forgets_openScope (parent : Option ScopeId) (isCall : Bool) :
    Forgets id (openScope parent isCall) (openScope parent isCall) := by
  refine forgets_modifyGet fun w => ?_
  simp [World.unplaced, Scope.unplaced]

theorem forgets_define (s : ScopeId) (name : String) (v : Value) :
    Forgets id (define s name v) (define s name v.unplaced) := by
  refine Forgets.get_bind fun w => ?_
  rw [World.scope_unplaced]
  cases w.scopes[s.index]? with
  | none => exact forgets_pure id ()
  | some scope =>
      refine .ite (by simp [Scope.unplaced]) (fun _ => forgets_fail (.alreadyDeclared name))
        fun _ => ?_
      refine forgets_modifyGet fun w => Prod.ext rfl ?_
      refine congrArg (fun scopes => { w.unplaced with scopes := scopes }) ?_
      apply Array.ext_getElem?
      intro i
      simp only [World.unplaced, Array.getElem?_modify, Array.getElem?_map]
      split
      · cases w.scopes[i]? <;> simp [Scope.unplaced]
      · rfl

theorem forgets_resolve (s : ScopeId) (name : String) :
    Forgets Value.unplaced (resolve s name) (resolve s name) := by
  refine Forgets.get_bind fun w => ?_
  rw [World.lookup?_unplaced]
  cases w.lookup? s name with
  | some value => exact forgets_pure Value.unplaced value
  | none => exact forgets_fail (.notDefined name)

/-- Noting an event. -/
theorem forgets_note (e : Event) :
    Forgets id (modify fun w : World => w.note e) (modify fun w : World => w.note e.unplaced) := by
  refine forgets_modifyGet fun w => ?_
  simp [World.note, World.unplaced]

theorem forgets_observe (v : Value) : Forgets id (observe v) (observe v.unplaced) := by
  refine Forgets.get_bind fun w => ?_
  rw [World.observer_unplaced]
  cases w.observer with
  | absent => exact forgets_note (.logged v)
  | recording => exact forgets_note (.observed v)
  | failing text =>
      exact (forgets_note (.observed v)).bind fun _ => forgets_fail (.observerFailed text)

end Eval

open Eval

/-! ## Operators -/

theorem requireNumber_unplaced (context : String) (v : Value) :
    requireNumber context v.unplaced = unplacedAnswer id (requireNumber context v) := by
  cases v <;> rfl

theorem requireTruth_unplaced (context : String) (v : Value) :
    requireTruth context v.unplaced = unplacedAnswer id (requireTruth context v) := by
  unfold requireTruth
  rw [Value.truth?_unplaced]
  cases v.truth? <;> rfl

theorem requireResult_unplaced (v : Value) :
    requireResult v.unplaced = unplacedAnswer Value.unplaced (requireResult v) := by
  cases v with
  | foreign id data => cases data <;> rfl
  | _ => rfl

theorem applyCompare_unplaced (op : CompareOp) (left right : Value) :
    applyCompare op left.unplaced right.unplaced =
      unplacedAnswer id (applyCompare op left right) := by
  cases op with
  | same | looselySame | differs | looselyDiffers =>
      simp only [applyCompare, Value.strictlyEqual_unplaced]
      rfl
  | _ => cases left <;> cases right <;> rfl

theorem forgets_calculate (op : BinaryOp) (x y : Float) :
    Forgets Value.unplaced (calculate op x y) (calculate op x y) := by
  cases op with
  | add | subtract | multiply => exact forgets_makeNumber _
  | divide =>
      exact .ite Iff.rfl (fun _ => forgets_fail .divisionByZero) fun _ => forgets_makeNumber _
  | remainder =>
      refine .ite Iff.rfl (fun _ => forgets_fail .moduloByZero) fun _ => ?_
      cases Number.remainder? x y with
      | some r => exact forgets_makeNumber r
      | none => exact forgets_breakDown .noRemainder
  | unknown text => exact forgets_fail (.unknownOperator text)

theorem forgets_applyBinary (op : BinaryOp) (left right : Value) :
    Forgets Value.unplaced (applyBinary op left right)
      (applyBinary op left.unplaced right.unplaced) := by
  have hnumbers (op : BinaryOp) :
      Forgets Value.unplaced
        (do
          let x ← Eval.ofExcept (requireNumber op.spelling left)
          let y ← Eval.ofExcept (requireNumber op.spelling right)
          calculate op x y)
        (do
          let x ← Eval.ofExcept (requireNumber op.spelling left.unplaced)
          let y ← Eval.ofExcept (requireNumber op.spelling right.unplaced)
          calculate op x y) :=
    (forgets_ofExcept (requireNumber_unplaced _ left)).bind fun x =>
      (forgets_ofExcept (requireNumber_unplaced _ right)).bind fun y => forgets_calculate op x y
  cases op with
  | add =>
      have hother := forgets_fail (f := Value.unplaced) (.cannotAdd left right)
      cases left with
      | number id x =>
          cases right with
          | number id y => exact forgets_calculate .add x y
          | _ => exact hother
      | string s =>
          cases right with
          | string t => exact forgets_pure Value.unplaced (.string (s ++ t))
          | _ => exact hother
      | _ => exact hother
  | _ => exact hnumbers _

/-! ## Parts -/

theorem forgets_getField (receiver : Value) (name : String) :
    Forgets Value.unplaced (getField receiver name) (getField receiver.unplaced name) := by
  have hother := forgets_fail (f := Value.unplaced) (.noProperty name receiver)
  cases receiver with
  | record id slots =>
      simp only [Value.unplaced, Slots.unplaced_eq, getField, Slots.get?_unplaced]
      cases Slots.get? slots name with
      | some value => exact forgets_pure Value.unplaced value
      | none => exact forgets_fail (.keyNotFound name)
  | array id items =>
      have hlength : (Value.unplacedAll items).length = items.length := by simp
      refine .ite Iff.rfl (fun _ => ?_) fun _ => hother
      rw [hlength]
      exact forgets_makeNumber _
  | string text => exact .ite Iff.rfl (fun _ => forgets_makeNumber _) fun _ => hother
  | _ => exact hother

theorem positionOf_unplaced (index : Value) (length : Nat) :
    positionOf index.unplaced length = unplacedAnswer id (positionOf index length) := by
  cases index with
  | number id x =>
      simp only [Value.unplaced, positionOf]
      cases Number.whole? x with
      | none => rfl
      | some n =>
          dsimp only
          split <;> rfl
  | _ => rfl

theorem forgets_getIndex (receiver index : Value) :
    Forgets Value.unplaced (getIndex receiver index)
      (getIndex receiver.unplaced index.unplaced) := by
  have hother := forgets_fail (f := Value.unplaced) (.cannotIndex receiver)
  cases receiver with
  | array id items =>
      simp only [Value.unplaced, Value.unplacedAll_eq, getIndex, List.length_map]
      refine (forgets_ofExcept (positionOf_unplaced index items.length)).bind fun i => ?_
      simp only [id_eq, List.getElem?_map]
      cases items[i]? with
      | some item => exact forgets_pure Value.unplaced item
      | none => exact forgets_fail (.outOfBounds i items.length)
  | string text =>
      refine (forgets_ofExcept (positionOf_unplaced index text.length)).bind fun i => ?_
      simp only [id_eq]
      cases text.toList[i]? with
      | some c => exact forgets_pure Value.unplaced (.string (String.ofList [c]))
      | none => exact forgets_fail (.outOfBounds i text.length)
  | record id slots =>
      have hkey := forgets_fail (f := Value.unplaced) (.keyNotString index)
      cases index with
      | string name => exact forgets_getField (.record id slots) name
      | _ => exact hkey
  | _ => exact hother

/-! ## Built-in operations -/

theorem requirePair_unplaced (operation : Builtin) (arg : Value) :
    requirePair operation arg.unplaced =
      unplacedAnswer Value.unplacedPair (requirePair operation arg) := by
  cases arg with
  | array id items =>
      match items with
      | [] | [_] | [_, _] | _ :: _ :: _ :: _ => rfl
  | _ => rfl

theorem forgets_runBuiltin (operation : Builtin) (arg : Value) :
    Forgets Value.unplaced (runBuiltin operation arg) (runBuiltin operation arg.unplaced) := by
  cases operation with
  | split =>
      refine (forgets_ofExcept (requirePair_unplaced .split arg)).bind fun pair => ?_
      obtain ⟨left, right⟩ := pair
      have hother := forgets_fail (f := Value.unplaced) .expectsStrings
      cases left with
      | string text =>
          cases right with
          | string separator =>
              have hlist := forgets_makeList ((Text.split text separator).map Value.string)
              rw [List.map_map] at hlist
              exact hlist
          | _ => exact hother
      | _ => exact hother
  | debug => exact (forgets_observe arg).bind fun _ => forgets_pure Value.unplaced arg
  | equal =>
      refine (forgets_ofExcept (requirePair_unplaced .equal arg)).bind fun pair => ?_
      refine Forgets.get_bind fun w => ?_
      have hsame := Value.structurallyEqual_unplaced w.legacy pair.1 pair.2
      have hpure := forgets_pure Value.unplaced
        (.truth (Value.structurallyEqual w.legacy pair.1 pair.2))
      rw [Value.unplaced_truth] at hpure
      dsimp only [Value.unplacedPair, World.legacy_unplaced]
      rw [hsame]
      exact hpure

theorem forgets_callBuiltin (operation : Builtin) (args : List Value) :
    Forgets Value.unplaced (callBuiltin operation args)
      (callBuiltin operation (args.map Value.unplaced)) := by
  match args with
  | [] => exact forgets_fail (.arity operation.name 1 0)
  | [arg] =>
      exact (forgets_runBuiltin operation arg).bind fun v =>
        forgets_ofExcept (requireResult_unplaced v)
  | u :: v :: vs =>
      have harity := forgets_fail (f := Value.unplaced)
        (.arity operation.name 1 (u :: v :: vs).length)
      simpa [callBuiltin] using harity

/-! ## Binding patterns -/

theorem decodeLiteral_unplaced (literal : String) :
    decodeLiteral literal = unplacedAnswer id (decodeLiteral literal) := by
  unfold decodeLiteral
  cases Text.Quoted.decode? literal.toList with
  | some cs => rfl
  | none =>
      dsimp only
      cases Json.read? literal.toList <;> rfl

theorem forgets_decodeString (literal : String) :
    Forgets id (decodeString literal) (decodeString literal) := by
  refine (forgets_ofExcept (decodeLiteral_unplaced literal)).bind fun data => ?_
  cases data with
  | text s => exact forgets_pure id s
  | _ => exact forgets_breakDown _

theorem forgets_decodeName (literal : String) :
    Forgets id (decodeName literal) (decodeName literal) := by
  refine (forgets_ofExcept (decodeLiteral_unplaced literal)).bind fun data => ?_
  cases data with
  | text s => exact forgets_pure id s
  | _ =>
      dsimp only [id]
      split
      · exact forgets_breakDown _
      · exact forgets_pure id _

theorem forgets_decode (k : Key) : Forgets id k.decode k.unplaced.decode := by
  obtain ⟨pos, name⟩ := k
  cases name with
  | bare name => exact forgets_pure id name.text
  | quoted literal => exact forgets_decodeName literal.text
  | malformed shown => exact forgets_fail (.malformedKey shown)
  | broken b => exact forgets_breakDown b

mutual

theorem forgets_bindPattern (s : ScopeId) (p : Pattern) (v : Value) :
    Forgets id (bindPattern s p v) (bindPattern s p.unplaced v.unplaced) := by
  match p with
  | .name _ name => exact forgets_define s name.text v
  | .array _ patterns =>
      have hother := forgets_fail (f := @id Unit) (.notAnArray v)
      cases v with
      | array _ items =>
          simp only [Pattern.unplaced, Value.unplaced, bindPattern]
          refine .ite (by simp) (fun _ => ?_) fun _ => ?_
          · simpa using forgets_fail (f := id) (.tooFewItems patterns.length items.length)
          · simpa using forgets_bindItems s patterns items
      | _ => exact hother
  | .record _ fields =>
      have hother := forgets_fail (f := @id Unit) (.notARecord v)
      cases v with
      | record _ slots =>
          simpa [bindPattern] using forgets_bindFields s fields slots
      | _ => exact hother
  | .unsupported label => exact forgets_fail (.unsupportedPattern label)
  | .broken b => exact forgets_breakDown b

theorem forgets_bindItems (s : ScopeId) (ps : List Pattern) (vs : List Value) :
    Forgets id (bindItems s ps vs)
      (bindItems s (ps.map Pattern.unplaced) (vs.map Value.unplaced)) := by
  match ps, vs with
  | [], _ | _ :: _, [] => exact forgets_pure id ()
  | p :: ps, v :: vs =>
      exact (forgets_bindPattern s p v).bind fun _ => forgets_bindItems s ps vs

theorem forgets_bindFields (s : ScopeId) (fs : List PatternField) (slots : Slots) :
    Forgets id (bindFields s fs slots)
      (bindFields s (fs.map PatternField.unplaced) slots.unplaced) := by
  match fs with
  | [] => exact forgets_pure id ()
  | .broken b :: _ => exact forgets_breakDown b
  | .mk _ key pattern :: rest =>
      refine (forgets_decode key).bind fun name => ?_
      rw [Slots.get?_unplaced]
      dsimp only [id_eq]
      cases slots.get? name with
      | some value =>
          exact (forgets_bindPattern s pattern value).bind fun _ =>
            forgets_bindFields s rest slots
      | none =>
          have hmissing := forgets_fail (f := @id Unit) (.keyNotFound name)
          exact hmissing.bind fun _ => forgets_bindFields s rest slots

end

end VariantScript
