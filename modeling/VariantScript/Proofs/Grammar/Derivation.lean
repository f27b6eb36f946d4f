import VariantScript.Proofs.Grammar.Rules
import VariantScript.Syntax.Lexeme

/-!
# Derivations

Which tokens an expansion derives, and the trees that a derivation makes of them.  A named terminal
makes a leaf, a mark makes nothing, and a rule puts the trees of its parts under a label or passes
them on.  A tree stands where the first of its tokens stands.  Afterwards a tree is normalized:
shorthands are spelled out and the whole script is labelled as a program.
-/

namespace VariantScript.Syntax

/-- Whether a terminal takes exactly a text off some source that starts with it. -/
def Terminal.Takes (t : Terminal) (text : List Char) : Prop :=
  text ≠ [] ∧ ∃ rest, t.matchLength (text ++ rest) = text.length

/-- Whether a token is an instance of its kind. -/
def Token.IsGenuine (t : Token) : Prop :=
  match t.kind with
  | .keyword word => t.text = word.spelling
  | .name => Terminal.Takes (.token .name) t.text.toList ∧ Keyword.ofSpelling? t.text = none
  | kind => Terminal.Takes (.token kind) t.text.toList

/-- Whether a token is an instance of a kind. -/
def Token.Is (t : Token) (kind : TokenKind) : Prop :=
  t.kind = kind ∧ t.IsGenuine

namespace Grammar

/-- The trees that a rule makes of the trees of an alternative and its tokens. -/
def Rule.build (r : Rule) (label? : Option String) (w : List Token) (xs : List Node) : List Node :=
  match label?, r.shape, xs with
  | some label, _, xs => [.tree label (startOf w) xs]
  | none, .inlined, xs => xs
  | none, .collapsing, [x] => [x]
  | none, _, xs => [.tree r.label (startOf w) xs]

/-- An expansion derives tokens and makes trees of them. -/
inductive Derives : Expansion → List Token → List Node → Prop where
  | empty : Derives .empty [] []
  | mark {t : Token} {kind : TokenKind} (ht : t.Is kind) : Derives (.mark kind) [t] []
  | terminal {t : Token} {kind : TokenKind} (ht : t.Is kind) :
      Derives (.terminal kind) [t] [.leaf kind t.spelled]
  | rule {r : Rule} {e : Expansion} {label? : Option String} {w : List Token} {xs : List Node}
      (mem : (e, label?) ∈ r.alternatives) (body : Derives e w xs) :
      Derives (.rule r) w (r.build label? w xs)
  | seq {a b : Expansion} {u v : List Token} {xs ys : List Node}
      (first : Derives a u xs) (second : Derives b v ys) :
      Derives (.seq a b) (u ++ v) (xs ++ ys)
  | eitherFirst {a b : Expansion} {w : List Token} {xs : List Node} (h : Derives a w xs) :
      Derives (.either a b) w xs
  | eitherSecond {a b : Expansion} {w : List Token} {xs : List Node} (h : Derives b w xs) :
      Derives (.either a b) w xs
  | optionalNone {a : Expansion} : Derives (.optional a) [] []
  | optionalSome {a : Expansion} {w : List Token} {xs : List Node} (h : Derives a w xs) :
      Derives (.optional a) w xs
  | manyNone {a : Expansion} : Derives (.many a) [] []
  | manyMore {a : Expansion} {u v : List Token} {xs ys : List Node}
      (first : Derives a u xs) (others : Derives (.many a) v ys) :
      Derives (.many a) (u ++ v) (xs ++ ys)

/-- A rule derives tokens and makes one tree of them. -/
def Reads (r : Rule) (w : List Token) (n : Node) : Prop :=
  Derives (.rule r) w [n]

end Grammar

/-! ## Normalized trees -/

namespace Node

/-- The tree that stands for a tree with normalized children: a single parameter becomes a list of
parameters, a shorthand field a key and what its name stands for, and a script a program. -/
def respell (label : String) (pos : Option Position) (children : List Node) : Node :=
  match label, children with
  | "start", children => .tree "program" pos children
  | "arrow", [.tree "single_param" paramPos [name], body] =>
      .tree "arrow" pos [.tree "params" paramPos [.tree "bind_name" paramPos [name]], body]
  | "shorthand_field", [name] =>
      .tree "field" pos [.tree "key" none [name], .tree "var" pos [name]]
  | "pattern_shorthand", [name] =>
      .tree "pattern_field" pos [.tree "key" none [name], .tree "bind_name" pos [name]]
  | label, children => .tree label pos children

mutual
/-- The normalized tree of a tree. -/
def normalize : Node → Node
  | .tree label pos children => respell label pos (normalizeAll children)
  | .token type text pos => .token type text pos

/-- The normalized trees of trees. -/
def normalizeAll : List Node → List Node
  | [] => []
  | n :: ns => n.normalize :: normalizeAll ns
end

@[simp] theorem normalize_token (type text : String) (pos : Option Position) :
    (token type text pos).normalize = token type text pos := by
  simp [normalize]

@[simp] theorem normalize_leaf (kind : TokenKind) (s : Spelling) :
    (leaf kind s).normalize = leaf kind s := by
  simp [leaf]

@[simp] theorem normalize_tree (label : String) (pos : Option Position) (children : List Node) :
    (tree label pos children).normalize = respell label pos (normalizeAll children) := by
  simp [normalize]

@[simp] theorem normalizeAll_nil : normalizeAll [] = [] := by
  simp [normalizeAll]

@[simp] theorem normalizeAll_cons (n : Node) (ns : List Node) :
    normalizeAll (n :: ns) = n.normalize :: normalizeAll ns := by
  simp [normalizeAll]

@[simp] theorem normalizeAll_append (ms ns : List Node) :
    normalizeAll (ms ++ ns) = normalizeAll ms ++ normalizeAll ns := by
  induction ms with
  | nil => rfl
  | cons m ms ih => simp [ih]

/-- A label that is no shorthand, arrow or script keeps its tree. -/
theorem respell_of_ne {label : String} (pos : Option Position) (children : List Node)
    (h : label ∉ ["start", "arrow", "shorthand_field", "pattern_shorthand"]) :
    respell label pos children = .tree label pos children := by
  simp only [List.mem_cons, List.not_mem_nil, or_false, not_or] at h
  unfold respell
  split <;> simp_all

end Node

end VariantScript.Syntax
