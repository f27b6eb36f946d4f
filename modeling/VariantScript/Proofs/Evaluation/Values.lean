import VariantScript.Evaluation.Fault
import VariantScript.Proofs.Reading.Written.Term
import VariantScript.Text.Quoted

/-!
# Values that scripts can hold

What a script can make of the values that it finds: truth values are one of two, lists are chains of
strings that end, records name no field twice, functions come from texts, and nothing is foreign.
Such a value can always be shown, and so can every cause of a fault that names some.
-/

namespace VariantScript

open Syntax

/-- A function that stands in some text. -/
structure Closure.IsWritten (f : Closure) : Prop where
  params : ∀ p ∈ f.params, p.IsWritten
  body : ∃ role, (role = .block ∨ role = .expression) ∧ f.body.IsWritten role

/-- A value that a script can hold. -/
inductive Value.IsSound : Value → Prop where
  | number {id : Identity} {x : Float} : IsSound (.number id x)
  | string {text : String} : IsSound (.string text)
  | array {id : Identity} {items : List Value} (hitems : ∀ v ∈ items, IsSound v) :
      IsSound (.array id items)
  | record {id : Identity} {slots : List (String × Value)} (hnames : (slots.map Prod.fst).Nodup)
      (hslots : ∀ slot ∈ slots, IsSound slot.2) : IsSound (.record id slots)
  | yes : IsSound (.variant .yes .yes (.array .unit []))
  | no : IsSound (.variant .no .no (.array .unit []))
  | empty : IsSound (.variant .empty .empty (.array .unit []))
  | cell {id pair : Identity} {text : String} {rest : Value} (hlist : rest.isList = true)
      (hrest : IsSound rest) :
      IsSound (.variant id .head (.array pair [.string text, rest]))
  | closure {id : Identity} {f : Closure} (hf : f.IsWritten) :
      IsSound (.closure id f)
  | builtin {operation : Builtin} : IsSound (.builtin operation)

/-- Fields that a record of a script can have. -/
structure Slots.IsSound (slots : Slots) : Prop where
  names : (slots.map Prod.fst).Nodup
  values : ∀ slot ∈ slots, slot.2.IsSound

namespace Value.IsSound

theorem unit : (Value.unit).IsSound :=
  .array (by simp)

theorem truth (flag : Bool) : (Value.truth flag).IsSound := by
  cases flag
  · exact .no
  · exact .yes

theorem items {id : Identity} {vs : List Value} (h : (Value.array id vs).IsSound) :
    ∀ v ∈ vs, v.IsSound := by
  cases h with
  | array hitems => exact hitems

theorem slots {id : Identity} {slots : Slots} (h : (Value.record id slots).IsSound) :
    slots.IsSound := by
  cases h with
  | record hnames hslots => exact ⟨hnames, hslots⟩

theorem payload {id : Identity} {tag : Tag} {payload : Value}
    (h : (Value.variant id tag payload).IsSound) : payload.IsSound := by
  cases h with
  | yes | no | empty => exact unit
  | cell _ hrest => exact .array (by simpa using ⟨.string, hrest⟩)

theorem function {id : Identity} {f : Closure} (h : (Value.closure id f).IsSound) :
    f.IsWritten := by
  cases h with
  | closure hf => exact hf

end Value.IsSound

/-! ## Fields -/

namespace Slots

theorem mem_of_get? {slots : Slots} {name : String} {v : Value} (h : slots.get? name = some v) :
    (name, v) ∈ slots := by
  induction slots with
  | nil => cases h
  | cons slot slots ih =>
      obtain ⟨k, u⟩ := slot
      rw [get?, List.lookup_cons] at h
      split at h
      · rename_i hname
        cases h
        rw [beq_iff_eq.1 hname]
        exact .head _
      · exact .tail _ (ih h)

theorem IsSound.get? {slots : Slots} {name : String} {v : Value} (h : slots.IsSound)
    (hget : slots.get? name = some v) : v.IsSound :=
  h.values _ (mem_of_get? hget)

theorem isSound_nil : IsSound [] :=
  ⟨by simp, by simp⟩

theorem mem_set {slots : Slots} {name : String} {v : Value} {slot : String × Value}
    (h : slot ∈ slots.set name v) : slot = (name, v) ∨ slot ∈ slots := by
  induction slots with
  | nil => exact Or.inl (List.mem_singleton.1 h)
  | cons first slots ih =>
      obtain ⟨k, u⟩ := first
      unfold set at h
      split at h
      · rename_i hname
        rcases List.mem_cons.1 h with rfl | h
        · exact Or.inl (by rw [hname])
        · exact Or.inr (.tail _ h)
      · rcases List.mem_cons.1 h with rfl | h
        · exact Or.inr (.head _)
        · exact (ih h).imp id (.tail _)

/-- Setting a field adds its name if it is new. -/
theorem names_set (slots : Slots) (name : String) (v : Value) :
    (slots.set name v).map Prod.fst =
      if name ∈ slots.map Prod.fst then slots.map Prod.fst else slots.map Prod.fst ++ [name] := by
  induction slots with
  | nil => simp [set]
  | cons slot slots ih =>
      obtain ⟨k, u⟩ := slot
      unfold set
      by_cases hk : k = name
      · simp [hk]
      · rw [if_neg hk, List.map_cons, ih]
        have hname : name ≠ k := Ne.symm hk
        by_cases hmem : name ∈ slots.map Prod.fst <;> simp_all

theorem IsSound.set {slots : Slots} (h : slots.IsSound) (name : String) {v : Value}
    (hv : v.IsSound) : (slots.set name v).IsSound := by
  constructor
  · rw [names_set]
    split
    · exact h.names
    · rename_i hname
      refine List.nodup_append.2 ⟨h.names, by simp, ?_⟩
      rintro k hk _ hkname rfl
      rw [List.mem_singleton.1 hkname] at hk
      exact hname hk
  · intro slot hslot
    rcases mem_set hslot with rfl | hslot
    · exact hv
    · exact h.values slot hslot

end Slots

/-! ## Showing values -/

namespace Value

theorem firstDefect?_eq_none {vs : List Value} (h : ∀ v ∈ vs, v.defect? = none) :
    firstDefect? vs = none := by
  induction vs with
  | nil => rfl
  | cons v vs ih =>
      rw [firstDefect?, h v (.head _), ih fun v hv => h v (.tail _ hv)]
      rfl

theorem slotDefect?_eq_none {slots : List (String × Value)}
    (h : ∀ slot ∈ slots, slot.2.defect? = none) : slotDefect? slots = none := by
  induction slots with
  | nil => rfl
  | cons slot slots ih =>
      rw [slotDefect?, h slot (.head _), ih fun slot hslot => h slot (.tail _ hslot)]
      rfl

/-- Every value that a script can hold can be shown, and a list also where it is the rest of one. -/
theorem IsSound.no_defect {v : Value} (h : v.IsSound) :
    v.defect? = none ∧ (v.isList = true → v.chainDefect? = none) := by
  -- Only the rest of a list is shown as a chain, so both facts are proved together.
  induction h with
  | number | string | closure | builtin => exact ⟨by simp [defect?], by simp [isList]⟩
  | array hitems ih =>
      exact ⟨by rw [defect?, firstDefect?_eq_none fun v hv => (ih v hv).1], by simp [isList]⟩
  | record _ hslots ih =>
      exact ⟨by rw [defect?, slotDefect?_eq_none fun slot hslot => (ih slot hslot).1],
        by simp [isList]⟩
  | yes | no => exact ⟨by simp [defect?], by simp [isList, Tag.family]⟩
  | empty => exact ⟨by simp [defect?], by simp [chainDefect?]⟩
  | cell hlist _ ih =>
      exact ⟨by simp [defect?, ih.2 hlist], by simp [chainDefect?, defect?, ih.2 hlist]⟩

theorem IsSound.defect? {v : Value} (h : v.IsSound) : v.defect? = none :=
  h.no_defect.1

/-- The cells of a list have new identities. -/
theorem le_listFrom (next : Nat) (vs : List Value) : next ≤ (listFrom next vs).2 := by
  induction vs with
  | nil => exact Nat.le_refl _
  | cons v vs ih => exact Nat.le_add_right_of_le ih

/-- A list that is made of strings. -/
theorem isSound_listFrom (next : Nat) (texts : List String) :
    (listFrom next (texts.map Value.string)).1.IsSound ∧
      (listFrom next (texts.map Value.string)).1.isList = true := by
  induction texts with
  | nil => exact ⟨.empty, rfl⟩
  | cons text texts ih => exact ⟨.cell ih.2 ih.1, rfl⟩

/-! ## Dispatching -/

/-- A property that a value hands on to its parts. -/
structure Hereditary (P : Value → Prop) : Prop where
  items {id : Identity} {vs : List Value} : P (.array id vs) → ∀ v ∈ vs, P v
  slots {id : Identity} {slots : Slots} : P (.record id slots) → ∀ slot ∈ slots, P slot.2
  payload {id : Identity} {tag : Tag} {payload : Value} : P (.variant id tag payload) → P payload

namespace Hereditary

variable {P : Value → Prop}

theorem selectBranch (hP : Hereditary P) {tag : Tag} {handler branch : Value} (h : P handler)
    (hbranch : selectBranch tag handler = .ok branch) : P branch := by
  unfold Value.selectBranch at hbranch
  split at hbranch
  · split at hbranch
    · split at hbranch
      · rename_i hget
        cases hbranch
        exact hP.slots h _ (Slots.mem_of_get? hget)
      · cases hbranch
    · cases hbranch
  · have hitems := hP.items h
    split at hbranch <;> cases hbranch <;> simp_all
  · cases hbranch

theorem dispatch (hP : Hereditary P) {id : Identity} {tag : Tag} {payload branch : Value}
    {args rest : List Value} (h : P (.variant id tag payload)) (hargs : ∀ v ∈ args, P v)
    (hdispatch : dispatch tag payload args = .ok (branch, rest)) :
    P branch ∧ ∀ v ∈ rest, P v := by
  unfold Value.dispatch at hdispatch
  split at hdispatch
  · rename_i handler
    split at hdispatch
    · rename_i hbranch
      cases hdispatch
      refine ⟨hP.selectBranch (hargs handler (.head _)) hbranch, fun v hv => ?_⟩
      split at hv
      · cases hv
      · rw [List.mem_singleton.1 hv]
        exact hP.payload h
    · cases hdispatch
  · cases hdispatch

/-- What a call comes down to is made of the callee and its arguments. -/
theorem resolve (hP : Hereditary P) {callee function : Value} {args rest : List Value}
    (h : P callee) (hargs : ∀ v ∈ args, P v)
    (hresolve : callee.resolve args = .ok (function, rest)) :
    P function ∧ ∀ v ∈ rest, P v := by
  -- A step leads to a branch and what it takes, which are smaller than the callee and its handler.
  induction hsize : sizeOf callee + sizeOf args using Nat.strongRecOn generalizing callee args with
  | ind n ih =>
      unfold Value.resolve at hresolve
      split at hresolve
      · split at hresolve
        · rename_i hdispatch
          obtain ⟨hbranch, hrest⟩ := hP.dispatch h hargs hdispatch
          exact ih _ (hsize ▸ sizeOf_dispatch_lt hdispatch) hbranch hrest hresolve rfl
        · cases hresolve
      · cases hresolve
        exact ⟨h, hargs⟩

end Hereditary

theorem hereditary_isSound : Hereditary IsSound :=
  ⟨IsSound.items, fun h => h.slots.values, IsSound.payload⟩

end Value

/-! ## Causes -/

/-- A cause of a fault that scripts from texts can have: none that comes from an ill-formed term, a
literal only if it is no string, and values only that scripts can hold. -/
def Cause.IsOrdinary : Cause → Prop
  | malformedKey _ | unsupportedPattern _ | unsupportedUnary _ | unknownOperator _
  | unknownComparison _ | unknownNode _ | unhandledToken _ _ | foreignResult _ => False
  | invalidString literal => Text.Quoted.decode? literal.toList = none
  | expectsNumbers _ got | expectsBoolean _ got | notAnArray got | notARecord got | noProperty _ got
  | indexNotWhole got | keyNotString got | cannotIndex got | notAFunction got | thrown got =>
      got.IsSound
  | cannotAdd left right | cannotCompare left _ right =>
      left.IsSound ∧ right.IsSound
  | _ => True

/-- An ordinary cause can always be said. -/
theorem Cause.IsOrdinary.defect? {cause : Cause} (h : cause.IsOrdinary) :
    cause.defect? = none := by
  cases cause
  case cannotAdd left right => simp [Cause.defect?, h.1.defect?, h.2.defect?]
  case cannotCompare left op right => simp [Cause.defect?, h.1.defect?, h.2.defect?]
  -- The other causes name one value or none.
  all_goals first
    | rfl
    | exact Value.IsSound.defect? h

end VariantScript
