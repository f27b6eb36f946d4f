import VariantScript.Proofs.Grammar.Derivation
import VariantScript.Proofs.Grammar.Subtrees
import VariantScript.Proofs.Serialization.Words

/-!
# Shorthands

A name alone can be a field with its value, a pattern of a field, or the parameters of an arrow.  The
tree of a program tells where: the key of such a field has no place, and such parameters stand where
the name does.

A tree is spelled out by what it is itself and by its parts, wherever it stands.  Normalizing looks at
arrows to find their parameters, but comes to the same.
-/

namespace VariantScript.Syntax

/-- What a name alone can be short for. -/
inductive Shorthand where
  /-- A field, or a pattern of one. -/
  | field
  /-- The parameters of an arrow. -/
  | parameter
deriving DecidableEq, Repr

namespace Node

/-! ## Trees without places -/

mutual
/-- The tree without any places. -/
def bare : Node → Node
  | .tree label _ children => .tree label none (bareAll children)
  | .token type text _ => .token type text none

/-- The trees without any places. -/
def bareAll : List Node → List Node
  | [] => []
  | n :: ns => n.bare :: bareAll ns
end

variable {n : Node} {ms ns : List Node} {label : String} {pos : Option Position}

@[simp] theorem bare_tree : (tree label pos ns).bare = .tree label none (bareAll ns) := by
  simp [bare]

@[simp] theorem bare_token {type text : String} :
    (token type text pos).bare = .token type text none := by
  simp [bare]

@[simp] theorem bareAll_nil : bareAll [] = [] := by
  simp [bareAll]

@[simp] theorem bareAll_cons : bareAll (n :: ns) = n.bare :: bareAll ns := by
  simp [bareAll]

@[simp] theorem bareAll_append : bareAll (ms ++ ns) = bareAll ms ++ bareAll ns := by
  induction ms with
  | nil => rfl
  | cons m ms ih => simp [ih]

theorem bareAll_eq_singleton (h : bareAll ns = [n]) : ∃ m, ns = [m] ∧ m.bare = n := by
  match ns with
  | [m] => exact ⟨m, rfl, by simpa using h⟩
  | [] | _ :: _ :: _ => simp at h

/-! ## Shorthands before they are spelled out -/

/-- The labels of shorthands. -/
def shorthandLabels : List String :=
  ["single_param", "shorthand_field", "pattern_shorthand"]

/-- The shorthand that a tree with this label and place is. -/
def sugar? (label : String) (pos : Option Position) : Option (Position × Shorthand) :=
  match label with
  | "single_param" => pos.map (·, .parameter)
  | "shorthand_field" | "pattern_shorthand" => pos.map (·, .field)
  | _ => none

mutual
/-- The shorthands in a tree that is not spelled out, with their places. -/
def sugars : Node → List (Position × Shorthand)
  | .tree label pos children => (sugar? label pos).toList ++ sugarsAll children
  | .token _ _ _ => []

/-- The shorthands in some trees that are not spelled out, with their places. -/
def sugarsAll : List Node → List (Position × Shorthand)
  | [] => []
  | n :: ns => n.sugars ++ sugarsAll ns
end

@[simp] theorem sugars_tree :
    (tree label pos ns).sugars = (sugar? label pos).toList ++ sugarsAll ns := by
  simp [sugars]

@[simp] theorem sugars_token {type text : String} : (token type text pos).sugars = [] := by
  simp [sugars]

@[simp] theorem sugarsAll_nil : sugarsAll [] = [] := by
  simp [sugarsAll]

@[simp] theorem sugarsAll_cons : sugarsAll (n :: ns) = n.sugars ++ sugarsAll ns := by
  simp [sugarsAll]

@[simp] theorem sugarsAll_append : sugarsAll (ms ++ ns) = sugarsAll ms ++ sugarsAll ns := by
  induction ms with
  | nil => rfl
  | cons m ms ih => simp [ih]

theorem sugar?_of_ne (h : label ∉ shorthandLabels) : sugar? label pos = none := by
  simp only [shorthandLabels, List.mem_cons, List.not_mem_nil, or_false, not_or] at h
  unfold sugar?
  split <;> simp_all

/-! ## Shorthands of a tree -/

/-- The shorthand that a tree with this label, place and children comes from, with the place of its
name. -/
def shorthand? (label : String) (pos : Option Position) (children : List Node) :
    Option (Position × Shorthand) :=
  match label, children with
  | "field", .tree "key" none [name] :: _ => name.pos.map (·, .field)
  | "pattern_field", .tree "key" none [name] :: _ => name.pos.map (·, .field)
  | "params", [name] => if name.pos = pos then pos.map (·, .parameter) else none
  | _, _ => none

mutual
/-- The shorthands that a tree comes from, with the places of their names. -/
def shorthands : Node → List (Position × Shorthand)
  | .tree label pos children => (shorthand? label pos children).toList ++ shorthandsAll children
  | .token _ _ _ => []

/-- The shorthands that some trees come from, with the places of their names. -/
def shorthandsAll : List Node → List (Position × Shorthand)
  | [] => []
  | n :: ns => n.shorthands ++ shorthandsAll ns
end

@[simp] theorem shorthands_tree : (tree label pos ns).shorthands =
    (shorthand? label pos ns).toList ++ shorthandsAll ns := by
  simp [shorthands]

@[simp] theorem shorthands_token {type text : String} : (token type text pos).shorthands = [] := by
  simp [shorthands]

@[simp] theorem shorthandsAll_nil : shorthandsAll [] = [] := by
  simp [shorthandsAll]

@[simp] theorem shorthandsAll_cons : shorthandsAll (n :: ns) = n.shorthands ++ shorthandsAll ns := by
  simp [shorthandsAll]

@[simp] theorem shorthandsAll_append :
    shorthandsAll (ms ++ ns) = shorthandsAll ms ++ shorthandsAll ns := by
  induction ms with
  | nil => rfl
  | cons m ms ih => simp [ih]

theorem shorthand?_of_ne (h : label ∉ ["field", "pattern_field", "params"]) :
    shorthand? label pos ns = none := by
  simp only [List.mem_cons, List.not_mem_nil, or_false, not_or] at h
  unfold shorthand?
  split <;> simp_all

/-- A field with a key that has a place is no shorthand. -/
theorem shorthand?_of_key_some (hlabel : label ∈ ["field", "pattern_field"]) (p : Position) :
    shorthand? label pos (tree "key" (some p) ms :: ns) = none := by
  rcases List.mem_pair.1 hlabel with rfl | rfl <;> rfl

/-! ## Spelling out -/

/-- The labels of shorthands and scripts before they are spelled out. -/
def sugarLabels : List String :=
  ["start", "single_param", "shorthand_field", "pattern_shorthand"]

/-- The tree that spells out a tree with children that are spelled out. -/
def desugar (label : String) (pos : Option Position) (children : List Node) : Node :=
  match label, children with
  | "start", children => .tree "program" pos children
  | "single_param", [name] => .tree "params" pos [.tree "bind_name" pos [name]]
  | "shorthand_field", [name] =>
      .tree "field" pos [.tree "key" none [name], .tree "var" pos [name]]
  | "pattern_shorthand", [name] =>
      .tree "pattern_field" pos [.tree "key" none [name], .tree "bind_name" pos [name]]
  | label, children => .tree label pos children

mutual
/-- The tree spelled out. -/
def desugared : Node → Node
  | .tree label pos children => desugar label pos (desugaredAll children)
  | .token type text pos => .token type text pos

/-- The trees spelled out. -/
def desugaredAll : List Node → List Node
  | [] => []
  | n :: ns => n.desugared :: desugaredAll ns
end

@[simp] theorem desugared_tree :
    (tree label pos ns).desugared = desugar label pos (desugaredAll ns) := by
  simp [desugared]

@[simp] theorem desugared_token {type text : String} :
    (token type text pos).desugared = token type text pos := by
  simp [desugared]

@[simp] theorem desugaredAll_nil : desugaredAll [] = [] := by
  simp [desugaredAll]

@[simp] theorem desugaredAll_cons : desugaredAll (n :: ns) = n.desugared :: desugaredAll ns := by
  simp [desugaredAll]

@[simp] theorem desugaredAll_append :
    desugaredAll (ms ++ ns) = desugaredAll ms ++ desugaredAll ns := by
  induction ms with
  | nil => rfl
  | cons m ms ih => simp [ih]

theorem desugar_of_ne (h : label ∉ sugarLabels) : desugar label pos ns = .tree label pos ns := by
  simp only [sugarLabels, List.mem_cons, List.not_mem_nil, or_false, not_or] at h
  unfold desugar
  split <;> simp_all

theorem pos_desugar : (desugar label pos ns).pos = pos := by
  unfold desugar
  split <;> rfl

theorem pos_desugared (n : Node) : n.desugared.pos = n.pos := by
  cases n with
  | token => rw [desugared_token]
  | tree => rw [desugared_tree, pos_desugar]; rfl

/-- Without places, a tree that is spelled out depends only on what it is spelled out from without
places. -/
theorem bare_desugar : (desugar label pos ns).bare = desugar label none (bareAll ns) := by
  unfold desugar
  split
  · simp
  · simp
  · simp
  · simp
  · rename_i hstart hparam hfield hpattern
    rw [bare_tree]
    split
    · exact (hstart rfl).elim
    · rename_i hns
      obtain ⟨name, rfl, -⟩ := bareAll_eq_singleton hns
      exact (hparam name rfl rfl).elim
    · rename_i hns
      obtain ⟨name, rfl, -⟩ := bareAll_eq_singleton hns
      exact (hfield name rfl rfl).elim
    · rename_i hns
      obtain ⟨name, rfl, -⟩ := bareAll_eq_singleton hns
      exact (hpattern name rfl rfl).elim
    · rfl

theorem desugared_respell :
    (respell label pos ns).desugared = desugar label pos (desugaredAll ns) := by
  unfold respell
  split
  case h_5 => rw [desugared_tree]
  all_goals simp [desugar]

mutual
theorem desugared_normalize (n : Node) : n.normalize.desugared = n.desugared := by
  cases n with
  | token => rw [normalize_token]
  | tree label pos children =>
      rw [normalize_tree, desugared_respell, desugaredAll_normalizeAll, desugared_tree]

theorem desugaredAll_normalizeAll (ns : List Node) :
    desugaredAll (normalizeAll ns) = desugaredAll ns := by
  cases ns with
  | nil => rw [normalizeAll_nil]
  | cons n ns =>
      rw [normalizeAll_cons, desugaredAll_cons, desugaredAll_cons, desugared_normalize,
        desugaredAll_normalizeAll]
end

mutual
/-- What has no such labels is spelled out already. -/
theorem desugared_eq_self {n : Node}
    (h : ∀ label pos children, (tree label pos children).IsIn n → label ∉ sugarLabels) :
    n.desugared = n := by
  cases n with
  | token => rw [desugared_token]
  | tree label pos children =>
      have hchildren := desugaredAll_eq_self fun _ _ _ hx => h _ _ _ (isIn_tree.2 (.inr hx))
      rw [desugared_tree, hchildren, desugar_of_ne (h _ _ _ .self)]

theorem desugaredAll_eq_self {ns : List Node}
    (h : ∀ label pos children, (tree label pos children).IsAmong ns → label ∉ sugarLabels) :
    desugaredAll ns = ns := by
  cases ns with
  | nil => rw [desugaredAll_nil]
  | cons n ns =>
      have hfirst := desugared_eq_self fun _ _ _ hx => h _ _ _ (isAmong_cons.2 (.inl hx))
      have hothers := desugaredAll_eq_self fun _ _ _ hx => h _ _ _ (isAmong_cons.2 (.inr hx))
      rw [desugaredAll_cons, hfirst, hothers]
end

end Node

end VariantScript.Syntax
