import VariantScript.Proofs.Comparison.Relation
import VariantScript.Proofs.Places.Unplaced

/-!
# Values do not tell their places

What scripts and messages find out about values is the same without the places in their functions:
kinds, identities, comparisons, the branch that a variant calls, and what cannot be shown.  The same
holds for what a world knows of names and calls.
-/

namespace VariantScript

open Syntax

namespace Value

/-! ## Telling values apart -/

@[simp] theorem unplaced_truth (flag : Bool) : (truth flag).unplaced = truth flag := by
  cases flag <;> rfl

theorem isUnit_unplaced (v : Value) : v.unplaced.isUnit = v.isUnit := by
  cases v with
  | array id items => cases items <;> rfl
  | _ => rfl

@[simp] theorem truth?_unplaced (v : Value) : v.unplaced.truth? = v.truth? := by
  cases v with
  | variant id tag payload => cases tag <;> rfl
  | _ => rfl

theorem isSame_unplaced (a b : Value) : isSame a.unplaced b.unplaced = isSame a b := by
  cases a <;> cases b <;> rfl

theorem strictlyEqual_unplaced (a b : Value) :
    strictlyEqual a.unplaced b.unplaced = strictlyEqual a b := by
  cases a <;> cases b <;> rfl

theorem unplaced_listFrom (next : Nat) (vs : List Value) :
    listFrom next (vs.map unplaced) = ((listFrom next vs).1.unplaced, (listFrom next vs).2) := by
  induction vs generalizing next with
  | nil => rfl
  | cons v vs ih => simp [listFrom, ih, cell]

/-! ## Comparing values part by part -/

/-- Both values of a pair without places. -/
def unplacedPair (p : Value × Value) : Value × Value :=
  (p.1.unplaced, p.2.unplaced)

theorem pairSlots_unplaced (xs ys : Slots) :
    pairSlots xs.unplaced ys.unplaced = (pairSlots xs ys).map unplacedPair := by
  induction xs with
  | nil => rfl
  | cons x xs ih =>
      obtain ⟨name, value⟩ := x
      unfold pairSlots at ih ⊢
      rw [Slots.unplaced_cons, List.filterMap_cons, List.filterMap_cons, ih]
      dsimp only
      rw [Slots.get?_unplaced]
      cases ys.get? name <;> rfl

theorem keysMatch_unplaced (legacy : Bool) (xs ys : Slots) :
    keysMatch legacy xs.unplaced ys.unplaced = keysMatch legacy xs ys := by
  unfold keysMatch
  rw [Slots.names_unplaced, Slots.names_unplaced, funext (Slots.has_unplaced xs),
    funext (Slots.has_unplaced ys)]

theorem lengthsMatch_unplaced (legacy : Bool) (xs ys : List Value) :
    lengthsMatch legacy (xs.map unplaced) (ys.map unplaced) = lengthsMatch legacy xs ys := by
  unfold lengthsMatch
  rw [List.length_map, List.length_map]

theorem compareHeads_unplaced (legacy : Bool) (a b : Value) :
    compareHeads legacy a.unplaced b.unplaced =
      (compareHeads legacy a b).map (List.map unplacedPair) := by
  cases a <;> cases b <;> try rfl
  all_goals simp only [unplaced, unplacedAll_eq, Slots.unplaced_eq, compareHeads]
  · split <;> rfl
  · rw [lengthsMatch_unplaced, List.zip_map]
    split <;> rfl
  · rw [keysMatch_unplaced, pairSlots_unplaced]
    split <;> rfl
  · split <;> rfl

theorem allEqual_unplaced (legacy : Bool) (pending : List (Value × Value)) :
    allEqual legacy (pending.map unplacedPair) = allEqual legacy pending := by
  induction pending using allEqual.induct legacy with
  | case1 => simp [allEqual]
  | case2 a b pending hsame ih =>
      have hsame' : isSame a.unplaced b.unplaced = true := by rwa [isSame_unplaced]
      rw [List.map_cons, unplacedPair, allEqual, if_pos hsame', allEqual, if_pos hsame, ih]
  | case3 a b pending hsame parts hheads ih =>
      have hsame' : ¬ isSame a.unplaced b.unplaced = true := by rwa [isSame_unplaced]
      have hheads' := compareHeads_unplaced legacy a b
      rw [hheads] at hheads'
      rw [List.map_cons, unplacedPair, allEqual_cons_some hsame' hheads', ← List.map_append, ih,
        allEqual_cons_some hsame hheads]
  | case4 a b pending hsame hheads =>
      have hsame' : ¬ isSame a.unplaced b.unplaced = true := by rwa [isSame_unplaced]
      have hheads' := compareHeads_unplaced legacy a b
      rw [hheads] at hheads'
      rw [List.map_cons, unplacedPair, allEqual_cons_none hsame' hheads',
        allEqual_cons_none hsame hheads]

theorem structurallyEqual_unplaced (legacy : Bool) (a b : Value) :
    structurallyEqual legacy a.unplaced b.unplaced = structurallyEqual legacy a b :=
  allEqual_unplaced legacy [(a, b)]

/-! ## Dispatching on variants -/

theorem selectBranch_unplaced (tag : Tag) (handler : Value) :
    selectBranch tag handler.unplaced = (selectBranch tag handler).map unplaced := by
  cases handler with
  | record id slots =>
      have hbranches :
          hasBranches tag.family (Slots.unplaced slots) = hasBranches tag.family slots := by
        unfold hasBranches
        rw [Slots.names_unplaced, funext (Slots.has_unplaced slots)]
      simp only [unplaced, Slots.unplaced_eq, selectBranch, hbranches, Slots.get?_unplaced,
        Slots.names_unplaced]
      split
      · cases Slots.get? slots tag.name <;> rfl
      · rfl
  | array id items =>
      rcases items with _ | ⟨_, _ | ⟨_, _ | _⟩⟩
      · cases tag <;> simp [selectBranch, Except.map]
      · cases tag <;> simp [selectBranch, Except.map]
      · cases tag <;> rfl
      · cases tag <;> simp [selectBranch, Except.map]
  | foreign id data => rfl
  | _ => rfl

theorem ignoresPayload_unplaced (branch payload : Value) :
    ignoresPayload branch.unplaced payload.unplaced = ignoresPayload branch payload := by
  cases branch with
  | closure id f =>
      simp only [unplaced, ignoresPayload, Closure.params_unplaced, List.isEmpty_map,
        isUnit_unplaced]
  | _ => rfl

/-- A callee and its arguments without places. -/
def unplacedCall (c : Value × List Value) : Value × List Value :=
  (c.1.unplaced, c.2.map unplaced)

theorem dispatch_unplaced (tag : Tag) (payload : Value) (args : List Value) :
    dispatch tag payload.unplaced (args.map unplaced) =
      (dispatch tag payload args).map unplacedCall := by
  match args with
  | [] => rfl
  | [handler] =>
      simp only [dispatch, List.map_cons, List.map_nil, selectBranch_unplaced]
      cases selectBranch tag handler with
      | error e => rfl
      | ok branch =>
          simp only [Except.map, ignoresPayload_unplaced, unplacedCall]
          split <;> rfl
  | _ :: _ :: _ => simp [dispatch, Except.map]

theorem resolve_unplaced (callee : Value) (args : List Value) :
    resolve callee.unplaced (args.map unplaced) = (resolve callee args).map unplacedCall := by
  cases callee with
  | variant id tag payload =>
      have hdispatch' := dispatch_unplaced tag payload args
      rw [unplaced, resolve, resolve]
      cases hdispatch : dispatch tag payload args with
      | ok call =>
          obtain ⟨branch, rest⟩ := call
          rw [hdispatch] at hdispatch'
          split <;> rename_i heq <;> cases hdispatch'.symm.trans heq
          exact resolve_unplaced branch rest
      | error e =>
          rw [hdispatch] at hdispatch'
          split <;> rename_i heq <;> cases hdispatch'.symm.trans heq
          rfl
  | _ => simp [resolve, unplacedCall, Except.map]
termination_by sizeOf callee + sizeOf args
decreasing_by exact sizeOf_dispatch_lt hdispatch

/-! ## What cannot be shown -/

theorem pairBreakdown_unplaced (v : Value) : v.unplaced.pairBreakdown = v.pairBreakdown := by
  cases v with
  | array id items => simp [pairBreakdown]
  | _ => simp [pairBreakdown, typeName]

mutual

theorem defect?_unplaced (v : Value) : v.unplaced.defect? = v.defect? := by
  match v with
  | .array _ items =>
      simp only [unplaced, defect?]
      exact firstDefect?_unplaced items
  | .record _ slots =>
      simp only [unplaced, defect?]
      exact slotDefect?_unplaced slots
  | .variant _ .head (.array _ [element, rest]) =>
      simp only [unplaced, unplacedAll, defect?, defect?_unplaced element,
        chainDefect?_unplaced rest]
  | .number _ _ | .string _ | .closure _ _ | .builtin _ | .foreign _ _ => rfl
  | .variant _ .head (.array _ []) | .variant _ .head (.array _ [_])
  | .variant _ .head (.array _ (_ :: _ :: _ :: _)) => simp [defect?, pairBreakdown]
  | .variant _ .head (.number _ _) | .variant _ .head (.string _) | .variant _ .head (.record _ _)
  | .variant _ .head (.variant _ _ _) | .variant _ .head (.closure _ _)
  | .variant _ .head (.builtin _) | .variant _ .head (.foreign _ _) =>
      exact congrArg some (pairBreakdown_unplaced _)
  | .variant _ .yes _ | .variant _ .no _ | .variant _ .empty _ => rfl

theorem firstDefect?_unplaced (vs : List Value) :
    firstDefect? (unplacedAll vs) = firstDefect? vs := by
  match vs with
  | [] => rfl
  | v :: vs =>
      rw [unplacedAll, firstDefect?, firstDefect?, defect?_unplaced v, firstDefect?_unplaced vs]

theorem chainDefect?_unplaced (v : Value) : v.unplaced.chainDefect? = v.chainDefect? := by
  match v with
  | .variant _ .head (.array _ [element, rest]) =>
      simp only [unplaced, unplacedAll, chainDefect?, defect?_unplaced element,
        chainDefect?_unplaced rest]
  | .variant _ .head (.array _ []) | .variant _ .head (.array _ [_])
  | .variant _ .head (.array _ (_ :: _ :: _ :: _)) => simp [chainDefect?, pairBreakdown]
  | .variant _ .head (.number _ _) | .variant _ .head (.string _) | .variant _ .head (.record _ _)
  | .variant _ .head (.variant _ _ _) | .variant _ .head (.closure _ _)
  | .variant _ .head (.builtin _) | .variant _ .head (.foreign _ _) =>
      exact congrArg some (pairBreakdown_unplaced _)
  | .variant _ .yes _ | .variant _ .no _ | .variant _ .empty _ => rfl
  | .number _ _ | .string _ | .array _ _ | .record _ _ | .closure _ _ | .builtin _ => rfl
  | .foreign _ _ => rfl

theorem slotDefect?_unplaced (slots : Slots) :
    slotDefect? (unplacedSlots slots) = slotDefect? slots := by
  match slots with
  | [] => rfl
  | (_, v) :: slots =>
      rw [unplacedSlots, slotDefect?, slotDefect?, defect?_unplaced v, slotDefect?_unplaced slots]

end

end Value

theorem Cause.defect?_unplaced (cause : Cause) : cause.unplaced.defect? = cause.defect? := by
  cases cause <;> simp [Cause.defect?, Value.defect?_unplaced]

/-! ## Names and calls -/

namespace World

theorem scope_unplaced (w : World) (s : ScopeId) :
    w.unplaced.scopes[s.index]? = w.scopes[s.index]?.map Scope.unplaced :=
  Array.getElem?_map

theorem lookup?_unplaced (w : World) (s : ScopeId) (name : String) :
    w.unplaced.lookup? s name = (w.lookup? s name).map Value.unplaced := by
  -- By induction on the scope, since the scope around it has a smaller number.
  induction hindex : s.index using Nat.strongRecOn generalizing s with
  | ind n ih =>
      rw [lookup?, lookup?, scope_unplaced]
      cases w.scopes[s.index]? with
      | none => rfl
      | some scope =>
          simp only [Option.map_some, Scope.unplaced, Slots.get?_unplaced]
          cases scope.vars.get? name with
          | some value => rfl
          | none =>
              simp only [Option.map_none]
              cases scope.parent with
              | none => rfl
              | some parent =>
                  dsimp only
                  split
                  · rename_i hlt
                    exact ih parent.index (hindex ▸ hlt) parent rfl
                  · rfl

theorem isInCall_unplaced (w : World) (s : ScopeId) : w.unplaced.isInCall s = w.isInCall s := by
  induction hindex : s.index using Nat.strongRecOn generalizing s with
  | ind n ih =>
      rw [isInCall, isInCall, scope_unplaced]
      cases w.scopes[s.index]? with
      | none => rfl
      | some scope =>
          simp only [Option.map_some, Scope.unplaced]
          cases scope.parent with
          | none => rfl
          | some parent =>
              dsimp only
              by_cases hlt : parent.index < s.index
              · rw [if_pos hlt, if_pos hlt, ih parent.index (hindex ▸ hlt) parent rfl]
              · rw [if_neg hlt, if_neg hlt]

end World

end VariantScript
