import VariantScript.Syntax.Node

/-!
# What is in a tree

The trees and tokens at any depth of a tree, and its tokens from left to right.
-/

namespace VariantScript.Syntax.Node

/-- A tree or token is in a tree if it is the tree itself or in one of its children. -/
inductive IsIn : Node → Node → Prop where
  | self {n : Node} : IsIn n n
  | child {x n : Node} {label : String} {pos : Option Position} {children : List Node}
      (hn : n ∈ children) (h : IsIn x n) : IsIn x (.tree label pos children)

/-- A tree or token is among some trees if it is in one of them. -/
def IsAmong (x : Node) (ns : List Node) : Prop :=
  ∃ n ∈ ns, x.IsIn n

variable {x y n : Node} {ns ms : List Node} {label : String} {pos : Option Position}

theorem isIn_tree : x.IsIn (.tree label pos ns) ↔ x = .tree label pos ns ∨ x.IsAmong ns := by
  constructor
  · intro h
    cases h with
    | self => exact .inl rfl
    | child hn h => exact .inr ⟨_, hn, h⟩
  · rintro (rfl | ⟨n, hn, h⟩)
    · exact .self
    · exact .child hn h

@[simp] theorem isIn_token {type text : String} :
    x.IsIn (.token type text pos) ↔ x = .token type text pos := by
  constructor
  · intro h
    cases h
    rfl
  · rintro rfl
    exact .self

@[simp] theorem not_isAmong_nil : ¬ x.IsAmong [] := by
  rintro ⟨n, hn, -⟩
  cases hn

@[simp] theorem isAmong_cons : x.IsAmong (n :: ns) ↔ x.IsIn n ∨ x.IsAmong ns := by
  simp [IsAmong]

@[simp] theorem isAmong_append : x.IsAmong (ms ++ ns) ↔ x.IsAmong ms ∨ x.IsAmong ns := by
  simp [IsAmong, or_and_right, exists_or]

theorem isAmong_singleton : x.IsAmong [n] ↔ x.IsIn n := by
  simp

mutual
/-- The tokens in a tree from left to right. -/
def leaves : Node → List Node
  | .tree _ _ children => leavesAll children
  | .token type text pos => [.token type text pos]

/-- The tokens in some trees from left to right. -/
def leavesAll : List Node → List Node
  | [] => []
  | n :: ns => n.leaves ++ leavesAll ns
end

@[simp] theorem leaves_tree : (Node.tree label pos ns).leaves = leavesAll ns := by
  simp [leaves]

@[simp] theorem leaves_token {type text : String} :
    (Node.token type text pos).leaves = [.token type text pos] := by
  simp [leaves]

@[simp] theorem leavesAll_nil : leavesAll [] = [] := by
  simp [leavesAll]

@[simp] theorem leavesAll_cons : leavesAll (n :: ns) = n.leaves ++ leavesAll ns := by
  simp [leavesAll]

@[simp] theorem leavesAll_append : leavesAll (ms ++ ns) = leavesAll ms ++ leavesAll ns := by
  induction ms with
  | nil => simp
  | cons m ms ih => simp [ih]

end VariantScript.Syntax.Node
