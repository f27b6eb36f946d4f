import VariantScript.Value.Basic

/-!
# Comparing values

Two comparisons: `===` takes numbers and strings by their worth and all else by identity; `equal`
compares arrays, records and variants part by part.  In legacy counting `equal` looks at the keys of
the left operand only, so a right operand with more keys or items still counts as equal.  Foreign
values are compared by identity, but some small ones exist once.

Lists nest one level for each element, so the parts still to be compared are kept in a list of their
own and not on the stack.
-/

namespace VariantScript.Value

/-- Whether two host values are the same object wherever they come from: nothing, the flags, whole
numbers from -5 to 256, texts of at most one character below U+0100, at most one byte, the empty
tuple. -/
def areOneObject : Host → Host → Bool
  | .null, .null => true
  | .truth f, .truth g => f = g
  | .whole m, .whole n => m = n && -5 ≤ m && m ≤ 256
  | .text s, .text t => s = t && s.length ≤ 1 && s.toList.all (·.toNat < 0x100)
  | .bytes s, .bytes t => s = t && s.utf8ByteSize ≤ 1
  | .tuple [], .tuple [] => true
  | _, _ => false

/-- Whether two values are the same object; strings are the same if their texts are. -/
def isSame : Value → Value → Bool
  | .number i _, .number j _ => i = j
  | .string s, .string t => s = t
  | .array i _, .array j _ => i = j
  | .record i _, .record j _ => i = j
  | .variant i _ _, .variant j _ _ => i = j
  | .closure i _, .closure j _ => i = j
  | .builtin f, .builtin g => f = g
  | .foreign i d, .foreign j e => i = j || areOneObject d e
  | _, _ => false

/-- Numbers and strings by worth, all else by identity. -/
def strictlyEqual : Value → Value → Bool
  | .number _ x, .number _ y => x == y
  | a, b => isSame a b

/-! ## Part by part -/

/-- Whether the keys of two records allow them to be equal. -/
def keysMatch (legacy : Bool) (left right : Slots) : Bool :=
  left.names.all right.has && (legacy || right.names.all left.has)

/-- Whether the lengths of two arrays allow them to be equal. -/
def lengthsMatch (legacy : Bool) (left right : List Value) : Bool :=
  if legacy then left.length ≤ right.length else left.length = right.length

/-- The fields of the right record under the names of the left one, beside the left fields. -/
def pairSlots (left right : Slots) : List (Value × Value) :=
  left.filterMap fun (name, value) => (right.get? name).map (value, ·)

/-- What is still to be compared once two values that are not the same object have been looked at;
`none` if they differ. -/
def compareHeads (legacy : Bool) : Value → Value → Option (List (Value × Value))
  | .number _ x, .number _ y => if x == y then some [] else none
  | .array _ xs, .array _ ys => if lengthsMatch legacy xs ys then some (xs.zip ys) else none
  | .record _ xs, .record _ ys => if keysMatch legacy xs ys then some (pairSlots xs ys) else none
  | .variant _ t p, .variant _ u q => if t = u then some [(p, q)] else none
  | _, _ => none

mutual
/-- How many values a value is made of. -/
def weight : Value → Nat
  | .array _ items => weights items + 1
  | .record _ slots => slotWeights slots + 1
  | .variant _ _ payload => weight payload + 1
  | _ => 1

/-- How many values some values are made of. -/
def weights : List Value → Nat
  | [] => 0
  | v :: vs => weight v + weights vs

/-- How many values some fields are made of. -/
def slotWeights : List (String × Value) → Nat
  | [] => 0
  | (_, v) :: rest => weight v + slotWeights rest
end

/-- The weight of the left operands that are still to be compared. -/
def pendingWeight : List (Value × Value) → Nat
  | [] => 0
  | (a, _) :: rest => weight a + pendingWeight rest

theorem pendingWeight_append (ps qs : List (Value × Value)) :
    pendingWeight (ps ++ qs) = pendingWeight ps + pendingWeight qs := by
  induction ps with
  | nil => simp [pendingWeight]
  | cons p ps ih => simp [pendingWeight, ih, Nat.add_assoc]

theorem weight_pos (v : Value) : 0 < weight v := by
  cases v <;> simp [weight]

theorem pendingWeight_zip (xs ys : List Value) : pendingWeight (xs.zip ys) ≤ weights xs := by
  induction xs generalizing ys with
  | nil => simp [pendingWeight, weights]
  | cons x xs ih =>
      cases ys with
      | nil => simp [pendingWeight]
      | cons y ys =>
          have := ih ys
          simp only [pendingWeight, List.zip_cons_cons, weights]
          omega

theorem pendingWeight_pairSlots (xs ys : Slots) :
    pendingWeight (pairSlots xs ys) ≤ slotWeights xs := by
  induction xs with
  | nil => simp [pendingWeight, pairSlots, slotWeights]
  | cons x xs ih =>
      obtain ⟨name, value⟩ := x
      cases h : ys.get? name with
      | none =>
          simp only [pairSlots, List.filterMap_cons, h, Option.map_none, slotWeights] at *
          omega
      | some other =>
          simp only [pairSlots, pendingWeight, List.filterMap_cons, h, Option.map_some,
            slotWeights] at *
          omega

theorem pendingWeight_compareHeads {legacy : Bool} {a b : Value} {parts : List (Value × Value)}
    (h : compareHeads legacy a b = some parts) : pendingWeight parts < weight a := by
  unfold compareHeads at h
  split at h
  · split at h <;> cases h
    simp [pendingWeight, weight]
  · split at h <;> cases h
    rename_i xs _ ys _
    have := pendingWeight_zip xs ys
    simp only [weight]
    omega
  · split at h <;> cases h
    rename_i xs _ ys _
    have := pendingWeight_pairSlots xs ys
    simp only [weight]
    omega
  · split at h <;> cases h
    simp [pendingWeight, weight]
  · cases h

/-- Whether all pending pairs are equal. -/
def allEqual (legacy : Bool) : List (Value × Value) → Bool
  | [] => true
  | (a, b) :: pending =>
      if isSame a b then allEqual legacy pending
      else
        match _h : compareHeads legacy a b with
        | some parts => allEqual legacy (parts ++ pending)
        | none => false
termination_by pending => pendingWeight pending
decreasing_by
  · have := weight_pos a
    simp only [pendingWeight]
    omega
  · rw [pendingWeight_append]
    have := pendingWeight_compareHeads _h
    simp only [pendingWeight]
    omega

/-- Whether two values are equal part by part. -/
def structurallyEqual (legacy : Bool) (a b : Value) : Bool :=
  allEqual legacy [(a, b)]

end VariantScript.Value
