import VariantScript.Value.Comparison

/-!
# Equality part by part as a relation

`Value.EqualParts` says by recursion on values when two of them are equal part by part.  Comparing
values keeps the pairs that are still to be compared in a list; the list is done with exactly if
each of its pairs is in the relation, whatever the order in which the pairs are taken.

The comparison is also given with what could go wrong in it: pairs are taken from the end to which
they were put, and a field of the left record is looked up in the right one, where it could be
missing.  It never is, since the names are compared first.
-/

namespace VariantScript.Value

/-- Equality part by part.  Strings with the same text are the same; functions and built-in
operations are equal only if they are the same.  In legacy counting the right operand may have more
items or names than the left one. -/
inductive EqualParts (legacy : Bool) : Value → Value → Prop where
  | same {a b : Value} (h : isSame a b = true) : EqualParts legacy a b
  | number {i j : Identity} {x y : Float} (h : (x == y) = true) :
      EqualParts legacy (.number i x) (.number j y)
  | array {i j : Identity} {xs ys : List Value} (hlength : xs.length ≤ ys.length)
      (hcount : legacy = false → ys.length ≤ xs.length)
      (hitems : ∀ (k : Nat) (x y : Value), xs[k]? = some x → ys[k]? = some y →
        EqualParts legacy x y) :
      EqualParts legacy (.array i xs) (.array j ys)
  | record {i j : Identity} {xs ys : List (String × Value)}
      (hnames : Slots.names xs ⊆ Slots.names ys)
      (hcount : legacy = false → Slots.names ys ⊆ Slots.names xs)
      (hslots : ∀ (name : String) (x y : Value), (name, x) ∈ xs → Slots.get? ys name = some y →
        EqualParts legacy x y) :
      EqualParts legacy (.record i xs) (.record j ys)
  | variant {i j : Identity} {tag : Tag} {p q : Value} (hpayload : EqualParts legacy p q) :
      EqualParts legacy (.variant i tag p) (.variant j tag q)

/-! ## Names and lengths -/

theorem has_iff_mem_names (slots : Slots) (name : String) :
    slots.has name = true ↔ name ∈ slots.names := by
  unfold Slots.has Slots.get? Slots.names
  rw [List.lookup_isSome_iff, List.mem_map]
  constructor
  · rintro ⟨slot, hslot, hname⟩
    exact ⟨slot, hslot, (beq_iff_eq.1 hname).symm⟩
  · rintro ⟨slot, hslot, rfl⟩
    exact ⟨slot, hslot, beq_self_eq_true _⟩

theorem exists_get?_of_mem_names {slots : Slots} {name : String} (h : name ∈ slots.names) :
    ∃ v, slots.get? name = some v :=
  Option.isSome_iff_exists.1 ((has_iff_mem_names slots name).2 h)

theorem keysMatch_iff (legacy : Bool) (xs ys : Slots) :
    keysMatch legacy xs ys = true ↔
      xs.names ⊆ ys.names ∧ (legacy = false → ys.names ⊆ xs.names) := by
  have hall (left right : Slots) :
      left.names.all right.has = true ↔ left.names ⊆ right.names := by
    simp only [List.all_eq_true, has_iff_mem_names]
    rfl
  unfold keysMatch
  cases legacy <;> simp [hall]

theorem lengthsMatch_iff (legacy : Bool) (xs ys : List Value) :
    lengthsMatch legacy xs ys = true ↔
      xs.length ≤ ys.length ∧ (legacy = false → ys.length ≤ xs.length) := by
  unfold lengthsMatch
  cases legacy with
  | false =>
      simp
      omega
  | true => simp

/-! ## One pair -/

theorem mem_pairSlots {xs ys : Slots} {p : Value × Value} :
    p ∈ pairSlots xs ys ↔ ∃ name, (name, p.1) ∈ xs ∧ ys.get? name = some p.2 := by
  obtain ⟨x, y⟩ := p
  simp only [pairSlots, List.mem_filterMap, Option.map_eq_some_iff, Prod.mk.injEq]
  constructor
  · rintro ⟨⟨name, v⟩, hmem, _, hget, rfl, rfl⟩
    exact ⟨name, hmem, hget⟩
  · rintro ⟨name, hmem, hget⟩
    exact ⟨(name, x), hmem, y, hget, rfl, rfl⟩

theorem mem_zip_iff {xs ys : List Value} {p : Value × Value} :
    p ∈ xs.zip ys ↔ ∃ k : Nat, xs[k]? = some p.1 ∧ ys[k]? = some p.2 := by
  rw [List.mem_iff_getElem?]
  simp only [List.getElem?_zip_eq_some]

/-- Two values that are not the same are equal part by part exactly if their heads agree and all that
is left to be compared then is. -/
theorem equalParts_iff_of_not_same {legacy : Bool} {a b : Value} (h : isSame a b = false) :
    EqualParts legacy a b ↔
      ∃ parts, compareHeads legacy a b = some parts ∧ ∀ p ∈ parts, EqualParts legacy p.1 p.2 := by
  constructor
  · intro heq
    cases heq with
    | same hsame => simp [h] at hsame
    | number hxy => exact ⟨[], by simp [compareHeads, hxy], by simp⟩
    | @array i j xs ys hlength hcount hitems =>
        have hmatch := (lengthsMatch_iff legacy xs ys).2 ⟨hlength, hcount⟩
        refine ⟨xs.zip ys, by simp [compareHeads, hmatch], fun p hp => ?_⟩
        obtain ⟨k, hx, hy⟩ := mem_zip_iff.1 hp
        exact hitems k _ _ hx hy
    | @record i j xs ys hnames hcount hslots =>
        have hmatch := (keysMatch_iff legacy xs ys).2 ⟨hnames, hcount⟩
        refine ⟨pairSlots xs ys, by simp [compareHeads, hmatch], fun p hp => ?_⟩
        obtain ⟨name, hx, hy⟩ := mem_pairSlots.1 hp
        exact hslots name _ _ hx hy
    | @variant i j tag p q hpayload =>
        exact ⟨[(p, q)], by simp [compareHeads], by simpa using hpayload⟩
  · rintro ⟨parts, hheads, hparts⟩
    unfold compareHeads at hheads
    split at hheads
    · split at hheads <;> cases hheads
      rename_i hxy
      exact .number hxy
    · split at hheads <;> cases hheads
      rename_i hmatch
      obtain ⟨hlength, hcount⟩ := (lengthsMatch_iff _ _ _).1 hmatch
      exact .array hlength hcount fun k x y hx hy => hparts (x, y) (mem_zip_iff.2 ⟨k, hx, hy⟩)
    · split at hheads <;> cases hheads
      rename_i hmatch
      obtain ⟨hnames, hcount⟩ := (keysMatch_iff _ _ _).1 hmatch
      exact .record hnames hcount fun name x y hx hy =>
        hparts (x, y) (mem_pairSlots.2 ⟨name, hx, hy⟩)
    · split at hheads <;> cases hheads
      rename_i htag
      cases htag
      exact .variant (hparts _ (.head _))
    · cases hheads

/-! ## All pairs -/

/-- A pair whose heads agree makes place for what is left of it. -/
theorem allEqual_cons_some {legacy : Bool} {a b : Value} {parts pending : List (Value × Value)}
    (hsame : ¬ isSame a b = true) (hheads : compareHeads legacy a b = some parts) :
    allEqual legacy ((a, b) :: pending) = allEqual legacy (parts ++ pending) := by
  rw [allEqual, if_neg hsame]
  split
  · rename_i hother
    rw [Option.some.inj (hheads.symm.trans hother)]
  · rename_i hother
    cases hheads.symm.trans hother

/-- A pair whose heads differ ends the comparison. -/
theorem allEqual_cons_none {legacy : Bool} {a b : Value} {pending : List (Value × Value)}
    (hsame : ¬ isSame a b = true) (hheads : compareHeads legacy a b = none) :
    allEqual legacy ((a, b) :: pending) = false := by
  rw [allEqual, if_neg hsame]
  split
  · rename_i hother
    cases hheads.symm.trans hother
  · rfl

/-- The pending pairs are equal exactly if each of them is: what a step puts in the place of a pair
is equal exactly if the pair is. -/
theorem allEqual_iff (legacy : Bool) (pending : List (Value × Value)) :
    allEqual legacy pending = true ↔ ∀ p ∈ pending, EqualParts legacy p.1 p.2 := by
  induction pending using allEqual.induct legacy with
  | case1 => simp [allEqual]
  | case2 a b pending hsame ih =>
      rw [allEqual, if_pos hsame, ih, List.forall_mem_cons]
      exact ⟨fun hrest => ⟨.same hsame, hrest⟩, And.right⟩
  | case3 a b pending hsame parts hheads ih =>
      have hpair : EqualParts legacy a b ↔ _ :=
        equalParts_iff_of_not_same (Bool.eq_false_iff.2 hsame)
      rw [allEqual_cons_some hsame hheads, ih, List.forall_mem_cons, List.forall_mem_append, hpair]
      simp [hheads]
  | case4 a b pending hsame hheads =>
      have hpair : EqualParts legacy a b ↔ _ :=
        equalParts_iff_of_not_same (Bool.eq_false_iff.2 hsame)
      rw [allEqual_cons_none hsame hheads, List.forall_mem_cons, hpair]
      simp [hheads]

/-! ## The comparison with what could go wrong in it -/

/-- The fields of the right record under the names of the left one, or the first name that is missing
there. -/
def pairSlotsStrictly : Slots → Slots → Except String (List (Value × Value))
  | [], _ => .ok []
  | (name, value) :: rest, right =>
      match right.get? name with
      | some other => (pairSlotsStrictly rest right).map ((value, other) :: ·)
      | none => .error name

/-- What is still to be compared once two values that are not the same have been looked at, or the
name of a missing field. -/
def compareHeadsStrictly (legacy : Bool) : Value → Value →
    Except String (Option (List (Value × Value)))
  | .record _ xs, .record _ ys =>
      if keysMatch legacy xs ys then (pairSlotsStrictly xs ys).map some else .ok none
  | a, b => .ok (compareHeads legacy a b)

theorem pairSlotsStrictly_eq {xs ys : Slots} (h : xs.names ⊆ ys.names) :
    pairSlotsStrictly xs ys = .ok (pairSlots xs ys) := by
  induction xs with
  | nil => rfl
  | cons slot xs ih =>
      obtain ⟨name, value⟩ := slot
      obtain ⟨other, hother⟩ := exists_get?_of_mem_names (h (.head _))
      have hrest : Slots.names xs ⊆ ys.names := fun k hk => h (.tail _ hk)
      simp only [pairSlotsStrictly, hother, ih hrest, pairSlots, List.filterMap_cons,
        Option.map_some]
      rfl

/-- No field is ever missing. -/
theorem compareHeadsStrictly_eq (legacy : Bool) (a b : Value) :
    compareHeadsStrictly legacy a b = .ok (compareHeads legacy a b) := by
  unfold compareHeadsStrictly
  split
  · rename_i xs _ ys
    by_cases hmatch : keysMatch legacy xs ys = true
    · have hpairs := pairSlotsStrictly_eq ((keysMatch_iff _ _ _).1 hmatch).1
      simp only [compareHeads, if_pos hmatch, hpairs]
      rfl
    · simp only [compareHeads, if_neg hmatch]
  · rfl

theorem pendingWeight_reverse (ps : List (Value × Value)) :
    pendingWeight ps.reverse = pendingWeight ps := by
  induction ps with
  | nil => rfl
  | cons p ps ih =>
      rw [List.reverse_cons, pendingWeight_append, ih]
      simp only [pendingWeight]
      omega

/-- Whether all pending pairs are equal, the pair that was put aside last being taken first; or the
name of a missing field. -/
def allEqualStrictly (legacy : Bool) : List (Value × Value) → Except String Bool
  | [] => .ok true
  | (a, b) :: pending =>
      if isSame a b then allEqualStrictly legacy pending
      else
        match _h : compareHeadsStrictly legacy a b with
        | .ok (some parts) => allEqualStrictly legacy (parts.reverse ++ pending)
        | .ok none => .ok false
        | .error name => .error name
termination_by pending => pendingWeight pending
decreasing_by
  · have := weight_pos a
    simp only [pendingWeight]
    omega
  · rw [compareHeadsStrictly_eq] at _h
    have := pendingWeight_compareHeads (Except.ok.inj _h)
    rw [pendingWeight_append, pendingWeight_reverse]
    simp only [pendingWeight]
    omega

/-- The order in which pairs are taken does not matter. -/
theorem allEqual_congr {legacy : Bool} {ps qs : List (Value × Value)}
    (h : ∀ p, p ∈ ps ↔ p ∈ qs) : allEqual legacy ps = allEqual legacy qs := by
  rw [Bool.eq_iff_iff, allEqual_iff, allEqual_iff]
  simp only [h]

/-- No name is ever missing, and taking the pairs from the other end changes nothing. -/
theorem allEqualStrictly_eq (legacy : Bool) (pending : List (Value × Value)) :
    allEqualStrictly legacy pending = .ok (allEqual legacy pending) := by
  induction pending using allEqualStrictly.induct legacy with
  | case1 => simp [allEqualStrictly, allEqual]
  | case2 a b pending hsame ih => rw [allEqualStrictly, allEqual, if_pos hsame, if_pos hsame, ih]
  | case3 a b pending hsame parts hstrict ih =>
      have hheads : compareHeads legacy a b = some parts :=
        Except.ok.inj ((compareHeadsStrictly_eq legacy a b).symm.trans hstrict)
      rw [allEqual_cons_some hsame hheads, allEqualStrictly, if_neg hsame]
      split
      · rename_i hother
        cases hstrict.symm.trans hother
        have horder : allEqual legacy (parts.reverse ++ pending)
            = allEqual legacy (parts ++ pending) := allEqual_congr (by simp)
        rw [ih, horder]
      · rename_i hother
        cases hstrict.symm.trans hother
      · rename_i hother
        cases hstrict.symm.trans hother
  | case4 a b pending hsame hstrict =>
      have hheads : compareHeads legacy a b = none :=
        Except.ok.inj ((compareHeadsStrictly_eq legacy a b).symm.trans hstrict)
      rw [allEqual_cons_none hsame hheads, allEqualStrictly, if_neg hsame]
      split
      · rename_i hother
        cases hstrict.symm.trans hother
      · rfl
      · rename_i hother
        cases hstrict.symm.trans hother
  | case5 a b pending hsame name hstrict =>
      cases (compareHeadsStrictly_eq legacy a b).symm.trans hstrict

theorem structurallyEqual_iff {legacy : Bool} {a b : Value} :
    structurallyEqual legacy a b = true ↔ EqualParts legacy a b := by
  rw [structurallyEqual, allEqual_iff]
  simp

/-- The comparison with pairs put aside always comes to an end without a missing field, and what it
says is equality part by part. -/
theorem structurallyEqual_refines (legacy : Bool) (a b : Value) :
    allEqualStrictly legacy [(a, b)] = .ok (structurallyEqual legacy a b) ∧
      (structurallyEqual legacy a b = true ↔ EqualParts legacy a b) :=
  ⟨allEqualStrictly_eq legacy _, structurallyEqual_iff⟩

end VariantScript.Value
