import VariantScript.Value.Basic

/-!
# Dispatching on variants

A variant is called with one handler: a record that has exactly the branches of its family as fields,
or an array with one item for each branch.  The branch of the variant's tag is called with the
payload; a function without parameters is called without it if the payload is unit.

A branch may be a variant again, which then takes the payload as its handler.  Such a chain ends by
itself, since branch and payload are proper parts of handler and variant.
-/

namespace VariantScript

/-- Why a variant cannot be dispatched. -/
inductive DispatchError where
  | handlerCount (tag : Tag) (got : Nat)
  | branchNames (tag : Tag) (got : List String)
  | branchCount (tag : Tag) (got : Nat)
  | notHandler (tag : Tag) (type : String)
deriving DecidableEq, Repr

/-- What is said about the error. -/
def DispatchError.message : DispatchError → String
  | .handlerCount tag got => s!"{tag.name} expects exactly one handler argument; got {got}"
  | .branchNames tag got =>
      let expected := String.intercalate ", " (tag.family.branches.map Tag.name)
      let names := String.intercalate ", " got
      let shown := if names.isEmpty then "no branches" else names
      s!"{tag.name} expects a handler with branches {expected}; got {shown}"
  | .branchCount tag got =>
      s!"{tag.name} expects {tag.family.branches.length} positional branches; got {got}"
  | .notHandler tag type => s!"Cannot dispatch {tag.name} on {type}"

namespace Value

/-- Whether the names of fields are exactly the branches of a family. -/
def hasBranches (family : Family) (slots : Slots) : Bool :=
  slots.names.all (fun name => (family.branch? name).isSome) &&
    family.branches.all fun tag => slots.has tag.name

/-- The branch of a handler for a tag. -/
def selectBranch (tag : Tag) (handler : Value) : Except DispatchError Value :=
  match handler with
  | .record _ slots =>
      if hasBranches tag.family slots then
        match Slots.get? slots tag.name with
        | some branch => .ok branch
        | none => .error (.branchNames tag (Slots.names slots))
      else .error (.branchNames tag (Slots.names slots))
  | .array _ items =>
      match tag, items with
      | .yes, [branch, _] | .empty, [branch, _] => .ok branch
      | .no, [_, branch] | .head, [_, branch] => .ok branch
      | _, _ => .error (.branchCount tag items.length)
  | other => .error (.notHandler tag other.typeName)

/-- Whether a branch takes no payload. -/
def ignoresPayload (branch payload : Value) : Bool :=
  match branch with
  | .closure _ f => f.params.isEmpty && payload.isUnit
  | _ => false

/-- What a variant that is called with some arguments calls in turn. -/
def dispatch (tag : Tag) (payload : Value) (args : List Value) :
    Except DispatchError (Value × List Value) :=
  match args with
  | [handler] =>
      match selectBranch tag handler with
      | .ok branch => .ok (branch, if ignoresPayload branch payload then [] else [payload])
      | .error e => .error e
  | _ => .error (.handlerCount tag args.length)

theorem sizeOf_get?_lt {slots : Slots} {name : String} {v : Value} (h : slots.get? name = some v) :
    sizeOf v < sizeOf slots := by
  induction slots with
  | nil => simp [Slots.get?] at h
  | cons s rest ih =>
      obtain ⟨k, w⟩ := s
      simp only [Slots.get?, List.lookup_cons] at h ih
      split at h
      · cases h
        simp only [List.cons.sizeOf_spec, Prod.mk.sizeOf_spec]
        omega
      · have := ih h
        simp only [List.cons.sizeOf_spec]
        omega

theorem sizeOf_selectBranch_lt {tag : Tag} {handler branch : Value}
    (h : selectBranch tag handler = .ok branch) : sizeOf branch < sizeOf handler := by
  unfold selectBranch at h
  split at h
  · split at h
    · split at h
      · rename_i hget
        cases h
        have := sizeOf_get?_lt hget
        simp only [Value.record.sizeOf_spec]
        omega
      · cases h
    · cases h
  · split at h <;> cases h <;> simp <;> omega
  · cases h

theorem sizeOf_dispatch_lt {id : Identity} {tag : Tag} {payload branch : Value}
    {args rest : List Value} (h : dispatch tag payload args = .ok (branch, rest)) :
    sizeOf branch + sizeOf rest < sizeOf (Value.variant id tag payload) + sizeOf args := by
  unfold dispatch at h
  split at h
  · split at h
    · rename_i hbranch
      have := sizeOf_selectBranch_lt hbranch
      cases h
      split <;> simp <;> omega
    · cases h
  · cases h

/-- What a call comes down to once all variants on the way have been dispatched. -/
def resolve (callee : Value) (args : List Value) : Except DispatchError (Value × List Value) :=
  match callee with
  | .variant _ tag payload =>
      match _h : dispatch tag payload args with
      | .ok (branch, rest) => resolve branch rest
      | .error e => .error e
  | other => .ok (other, args)
termination_by sizeOf callee + sizeOf args
decreasing_by exact sizeOf_dispatch_lt _h

end Value

end VariantScript
