import VariantScript.Proofs.Grammar.Heads
import VariantScript.Proofs.Grammar.Subtrees

/-!
# The text of a tree

Every tree in a program is read from tokens of its own.  They may be read to the same tree with
parentheses around them; these belong to no tree but to a larger one that begins with them.  A tree
stands where the first token of its own text stands.

Normalizing makes a few trees more: the name of a shorthand stands for a key, which has no place, and
for what it names.
-/

namespace VariantScript.Syntax

namespace Grammar

open Node (tree)

/-! ## What a tree is read from -/

/-- Tokens that a tree is read from. -/
inductive IsReadFrom : Node → List Token → Prop where
  | part {r : Rule} {w : List Token} {x : Node} (h : Produces (.one r) w [x]) : IsReadFrom x w
  | key {k : Token} (hk : k.IsKey) : IsReadFrom (keyTree k) [k]
  /-- The parameters of an arrow behind a lone name. -/
  | parameter {t : Token} (ht : t.Is .name) :
      IsReadFrom (tree "params" (some t.pos) [bindTree t]) [t]

/-- The tokens that a tree is read from, without parentheses around them. -/
structure OwnText (x : Node) (w : List Token) : Prop where
  reads : IsReadFrom x w
  bare : ∀ o inner c, w = o :: (inner ++ [c]) → o.Is .lpar → c.Is .rpar → ¬ IsReadFrom x inner

/-- A rule reads a tree that stands where its tokens start, unless these are an expression in
parentheses. -/
theorem pos_or_parenthesized {p : Part} {w : List Token} {ns : List Node} (h : Produces p w ns) :
    ∀ r x, p = .one r → ns = [x] → x.pos = startOf w ∨
      ∃ o inner c, w = o :: (inner ++ [c]) ∧ o.Is .lpar ∧ c.Is .rpar ∧
        Produces (.one .expression) inner [x] := by
  induction h with
  | expressionArrow _ ih | expressionConditional _ ih | conditionalOperand _ ih
  | unarySuffixed _ ih | suffixedPrimary _ ih | primaryArray _ ih | primaryObject _ ih
  | simpleDeclaration _ ih | simpleReturn _ ih | simpleThrow _ ih | compoundFunction _ ih
  | compoundIf _ ih | levelOperand _ ih =>
      intro r x _ hns
      exact ih _ x rfl hns
  | parenthesized ho h hc =>
      rintro r x - ⟨⟩
      exact .inr ⟨_, _, _, rfl, ho, hc, h⟩
  | listNil | listLast | listMore | bodyBlock | bodyExpression | statementsNil | statementsLast
  | statementsSemicolon | statementsSimple | statementsCompound =>
      intro r x hr
      cases hr
  | _ =>
      rintro r x - ⟨⟩
      exact .inl rfl

/-- A tree stands where its own text starts. -/
theorem OwnText.pos {x : Node} {w : List Token} (h : OwnText x w) : x.pos = startOf w := by
  cases h.reads with
  | part hread =>
      refine (pos_or_parenthesized hread _ x rfl rfl).resolve_right ?_
      rintro ⟨o, inner, c, hw, ho, hc, hinner⟩
      exact h.bare o inner c hw ho hc (.part hinner)
  | key => rfl
  | parameter => rfl

/-! ## Shorthands -/

/-- The tree that a shorthand stands for: a field whose key and value are one token. -/
inductive IsShorthand (t : Token) : Node → Prop where
  | field (ht : t.Is .name) :
      IsShorthand t (tree "field" (some t.pos) [shorthandKeyTree t, referenceTree t])
  | patternField (ht : t.Is .name) :
      IsShorthand t (tree "pattern_field" (some t.pos) [shorthandKeyTree t, bindTree t])

/-! ## How trees lie in a text -/

/-- The labels of the trees in a program. -/
def innerLabels : List String :=
  ["declaration", "return_stmt", "throw_stmt", "expr_stmt", "function_decl", "if_stmt", "block",
    "params", "bind_name", "array_pattern", "object_pattern", "pattern_field", "arrow", "ternary",
    "or_expr", "and_expr", "compare", "binary", "unary", "call", "member", "index", "number",
    "string", "true", "false", "var", "function_expr", "array", "object", "field", "key"]

/-- Trees lie in tokens side by side, each over the tokens that it is read from. -/
inductive Laid : List Token → List Node → Prop where
  | dropped (w : List Token) : Laid w []
  | kept (t : Token) : Laid [t] [t.leaf]
  | tree {label : String} {w : List Token} {ns : List Node} (hlabel : label ∈ innerLabels)
      (hread : IsReadFrom (tree label (startOf w) ns) w) (h : Laid w ns) :
      Laid w [tree label (startOf w) ns]
  | shorthand {t : Token} {x : Node} (hx : IsShorthand t x) : Laid [t] [x]
  | beside {u v : List Token} {xs ys : List Node} (h : Laid u xs) (h' : Laid v ys) :
      Laid (u ++ v) (xs ++ ys)

namespace Laid

variable {u v w : List Token} {xs ys ns : List Node}

theorem behind (o : Token) (h : Laid w ns) : Laid (o :: w) ns :=
  (dropped [o]).beside h

theorem before (h : Laid w ns) (c : Token) : Laid (w ++ [c]) ns := by
  simpa using h.beside (dropped [c])

theorem enclosed (o : Token) (h : Laid w ns) (c : Token) : Laid (o :: (w ++ [c])) ns :=
  (h.before c).behind o

theorem apart (h : Laid u xs) (o : Token) (h' : Laid v ys) : Laid (u ++ o :: v) (xs ++ ys) :=
  h.beside (h'.behind o)

theorem part {r : Rule} {label : String} (hlabel : label ∈ innerLabels) (h : Laid w ns)
    (hproduces : Produces (.one r) w [Node.tree label (startOf w) ns]) :
    Laid w [Node.tree label (startOf w) ns] :=
  .tree hlabel (.part hproduces) h

theorem bind {t : Token} (ht : t.Is .name) : Laid [t] [bindTree t] :=
  .part (r := .pattern) (w := [t]) (by decide) (.kept t) (.patternName ht)

theorem reference {t : Token} (ht : t.Is .name) : Laid [t] [referenceTree t] :=
  .part (r := .primary) (w := [t]) (by decide) (.kept t) (.reference ht)

theorem key {k : Token} (hk : k.IsKey) : Laid [k] [keyTree k] :=
  .tree (w := [k]) (by decide) (.key hk) (.kept k)

theorem operator (l : Phrase.Level) (op : Token) : Laid [op] (operatorLeaves l op) := by
  cases l with
  | or | and => exact .dropped [op]
  | _ => exact .kept op

end Laid

/-- The trees of a part lie in its tokens. -/
theorem laid_of_produces {p : Part} {w : List Token} {ns : List Node} (h : Produces p w ns)
    (hp : p.IsInner) : Laid w ns := by
  induction h with
  | start => exact hp.elim
  | listNil | statementsNil => exact .dropped []
  | listLast _ ih => exact ih (isInner_item hp)
  | levelOperand _ ih => exact ih (isInner_operand _)
  | expressionArrow _ ih | expressionConditional _ ih | bodyBlock _ ih | bodyExpression _ ih
  | conditionalOperand _ ih | unarySuffixed _ ih | suffixedPrimary _ ih | primaryArray _ ih
  | primaryObject _ ih | statementsLast _ ih | simpleDeclaration _ ih | simpleReturn _ ih
  | simpleThrow _ ih | compoundFunction _ ih | compoundIf _ ih => exact ih trivial
  | listMore _ _ _ ihItem ihItems => exact (ihItem (isInner_item hp)).apart _ (ihItems hp)
  | statementsSimple _ _ _ ihFirst ihOthers =>
      exact (ihFirst trivial).apart _ (ihOthers trivial)
  | statementsCompound _ _ ihFirst ihOthers => exact (ihFirst trivial).beside (ihOthers trivial)
  | statementsSemicolon _ _ ih => exact (ih trivial).behind _
  -- Parentheses are left out, and no tree is made.
  | parenthesized _ _ _ ih => exact (ih trivial).enclosed _ _
  -- Single tokens
  | patternName ht => exact .bind ht
  | reference ht => exact .reference ht
  | patternShorthand ht => exact .shorthand (.patternField ht)
  | fieldShorthand ht => exact .shorthand (.field ht)
  | number ht => exact .part (by decide) (.kept _) (.number ht)
  | string ht => exact .part (by decide) (.kept _) (.string ht)
  | trueWord ht => exact .part (by decide) (.dropped _) (.trueWord ht)
  | falseWord ht => exact .part (by decide) (.dropped _) (.falseWord ht)
  | returnNothing ht => exact .part (by decide) (.dropped _) (.returnNothing ht)
  -- Lists and statements between brackets
  | patternArray ho items hc ih =>
      exact .part (by decide) ((ih trivial).enclosed _ _) (.patternArray ho items hc)
  | patternRecord ho items hc ih =>
      exact .part (by decide) ((ih trivial).enclosed _ _) (.patternRecord ho items hc)
  | params ho items hc ih =>
      exact .part (by decide) ((ih trivial).enclosed _ _) (.params ho items hc)
  | array ho items hc ih =>
      exact .part (by decide) ((ih trivial).enclosed _ _) (.array ho items hc)
  | object ho items hc ih =>
      exact .part (by decide) ((ih trivial).enclosed _ _) (.object ho items hc)
  | block ho h hc ih => exact .part (by decide) ((ih trivial).enclosed _ _) (.block ho h hc)
  -- Trees with the place of their first token, which is a terminal
  | patternField hk hc value ih =>
      exact .part (by decide) ((Laid.key hk).apart _ (ih trivial)) (.patternField hk hc value)
  | field hk hc value ih =>
      exact .part (by decide) ((Laid.key hk).apart _ (ih trivial)) (.field hk hc value)
  | @arrowName a t w x ht ha body ih =>
      have hparams : Laid [t] [tree "params" (some t.pos) [bindTree t]] :=
        .tree (w := [t]) (by decide) (.parameter ht) (.bind ht)
      exact .part (by decide) (hparams.apart a (ih trivial)) (.arrowName ht ha body)
  | @unaryOperation op w x hop operand ih =>
      exact .part (by decide) ((Laid.kept op).beside (ih trivial)) (.unaryOperation hop operand)
  | returnValue ht value ih =>
      exact .part (by decide) ((ih trivial).behind _) (.returnValue ht value)
  | throwValue ht value ih =>
      exact .part (by decide) ((ih trivial).behind _) (.throwValue ht value)
  | functionExpression ht ps body ihParams ihBody =>
      exact .part (by decide) (((ihParams trivial).beside (ihBody trivial)).behind _)
        (.functionExpression ht ps body)
  | declaration ht pattern ho value ihPattern ihValue =>
      exact .part (by decide) (((ihPattern trivial).apart _ (ihValue trivial)).behind _)
        (.declaration ht pattern ho value)
  | @functionDeclaration k t u v x y ht hn ps body ihParams ihBody =>
      have hname := (Laid.kept k).beside ((ihParams trivial).beside (ihBody trivial))
      exact .part (by decide) (hname.behind t) (.functionDeclaration ht hn ps body)
  | ifThen ht ho condition hc yes ihCondition ihYes =>
      exact .part (by decide)
        ((((ihCondition trivial).apart _ (ihYes trivial)).behind _).behind _)
        (.ifThen ht ho condition hc yes)
  | @ifElse o c q t u v w x y z ht ho condition hc yes hq no ihCondition ihYes ihNo =>
      have hbranches := (ihYes trivial).apart q (ihNo trivial)
      exact .part (by decide) ((((ihCondition trivial).apart _ hbranches).behind _).behind _)
        (.ifElse ht ho condition hc yes hq no)
  | @ifElseIf o c q t u v w x y z ht ho condition hc yes hq no ihCondition ihYes ihNo =>
      have hbranches := (ihYes trivial).apart q (ihNo trivial)
      exact .part (by decide) ((((ihCondition trivial).apart _ hbranches).behind _).behind _)
        (.ifElseIf ht ho condition hc yes hq no)
  -- Trees that start with another one
  | expressionStatement h ih => exact .part (by decide) (ih trivial) (.expressionStatement h)
  | arrowParams ps ha body ihParams ihBody =>
      exact .part (by decide) ((ihParams trivial).apart _ (ihBody trivial))
        (.arrowParams ps ha body)
  | @ternary c q u v w x y z condition hq yes hc no ihCondition ihYes ihNo =>
      have hbranches := (ihYes trivial).apart c (ihNo trivial)
      exact .part (by decide) ((ihCondition trivial).apart _ hbranches)
        (.ternary condition hq yes hc no)
  | @operation l op u v x y left hop right ihLeft ihRight =>
      have hright := (Laid.operator l op).beside (ihRight (isInner_operand l))
      exact .part (by cases l <;> decide) ((ihLeft trivial).beside hright)
        (.operation left hop right)
  | call callee ho args hc ihCallee ihArgs =>
      exact .part (by decide) ((ihCallee trivial).beside ((ihArgs trivial).enclosed _ _))
        (.call callee ho args hc)
  | @member o t u x receiver ho ht ih =>
      exact .part (by decide) ((ih trivial).apart o (.kept t)) (.member receiver ho ht)
  | index receiver ho position hc ihReceiver ihPosition =>
      exact .part (by decide) ((ihReceiver trivial).beside ((ihPosition trivial).enclosed _ _))
        (.index receiver ho position hc)

end Grammar

end VariantScript.Syntax
