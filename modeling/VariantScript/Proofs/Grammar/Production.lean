import VariantScript.Proofs.Grammar.Derivation

/-!
# Productions

The derivations of the grammar once more, with one constructor for each alternative of each rule and
with normalized trees.  Lists with commas, statements and arrow bodies are parts of their own.  The
productions are what the proofs about reading take apart and put together;
`reads_iff_produces` ties them to the rules.
-/

namespace VariantScript.Syntax

/-- Whether a token is an operator of a level. -/
def Token.IsOperator (t : Token) (l : Phrase.Level) : Prop :=
  l.accepts t.kind = true ∧ t.IsGenuine

/-- Whether a token is a key. -/
def Token.IsKey (t : Token) : Prop :=
  t.Is .name ∨ t.Is .string

/-- Whether a token is a word that starts a declaration. -/
def Token.IsDeclarator (t : Token) : Prop :=
  t.Is (.keyword .constWord) ∨ t.Is (.keyword .letWord) ∨ t.Is (.keyword .varWord)

/-- Whether a token is an operator before an operand. -/
def Token.IsPrefixOperator (t : Token) : Prop :=
  t.Is .bang ∨ t.Is .minus

/-- The leaf of a token. -/
def Token.leaf (t : Token) : Node := .leaf t.kind t.spelled

namespace Grammar

open Phrase (Level)

/-- What productions are about. -/
inductive Part where
  | one (r : Rule)
  /-- Instances of a rule with commas between them and perhaps behind the last. -/
  | list (r : Rule)
  | statements
  /-- What stands behind an arrow. -/
  | body
deriving DecidableEq, Repr

/-- The leaf of an operator that joins two operands, if it is kept. -/
def operatorLeaves (l : Level) (op : Token) : List Node :=
  match l with
  | .or | .and => []
  | _ => [op.leaf]

/-- The tree of one parameter. -/
def bindTree (t : Token) : Node :=
  .tree "bind_name" (some t.pos) [t.leaf]

/-- The tree of a name that is looked up. -/
def referenceTree (t : Token) : Node :=
  .tree "var" (some t.pos) [t.leaf]

/-- The tree of a key that is written out. -/
def keyTree (t : Token) : Node :=
  .tree "key" (some t.pos) [t.leaf]

/-- The tree of the key of a shorthand. -/
def shorthandKeyTree (t : Token) : Node :=
  .tree "key" none [t.leaf]

open Node (tree)

/-- A part can be written as tokens, and has trees. -/
inductive Produces : Part → List Token → List Node → Prop where
  -- Lists with commas
  | listNil {r : Rule} : Produces (.list r) [] []
  | listLast {r : Rule} {w : List Token} {x : Node} (item : Produces (.one r) w [x]) :
      Produces (.list r) w [x]
  | listMore {r : Rule} {c : Token} {u v : List Token} {x : Node} {ns : List Node}
      (item : Produces (.one r) u [x]) (hc : c.Is .comma) (items : Produces (.list r) v ns) :
      Produces (.list r) (u ++ c :: v) (x :: ns)
  -- Patterns
  | patternName {t : Token} (ht : t.Is .name) :
      Produces (.one .pattern) [t] [bindTree t]
  | patternArray {o c : Token} {w : List Token} {ns : List Node}
      (ho : o.Is .lsqb) (items : Produces (.list .pattern) w ns) (hc : c.Is .rsqb) :
      Produces (.one .pattern) (o :: (w ++ [c])) [tree "array_pattern" (some o.pos) ns]
  | patternRecord {o c : Token} {w : List Token} {ns : List Node}
      (ho : o.Is .lbrace) (items : Produces (.list .patternField) w ns) (hc : c.Is .rbrace) :
      Produces (.one .pattern) (o :: (w ++ [c])) [tree "object_pattern" (some o.pos) ns]
  | patternField {k c : Token} {w : List Token} {x : Node}
      (hk : k.IsKey) (hc : c.Is .colon) (value : Produces (.one .pattern) w [x]) :
      Produces (.one .patternField) (k :: c :: w) [tree "pattern_field" (some k.pos) [keyTree k, x]]
  | patternShorthand {t : Token}
      (ht : t.Is .name) :
      Produces (.one .patternField) [t]
        [tree "pattern_field" (some t.pos) [shorthandKeyTree t, bindTree t]]
  | params {o c : Token} {w : List Token} {ns : List Node}
      (ho : o.Is .lpar) (items : Produces (.list .pattern) w ns) (hc : c.Is .rpar) :
      Produces (.one .params) (o :: (w ++ [c])) [tree "params" (some o.pos) ns]
  -- Expressions
  | expressionArrow {w : List Token} {x : Node} (h : Produces (.one .arrow) w [x]) :
      Produces (.one .expression) w [x]
  | expressionConditional {w : List Token} {x : Node} (h : Produces (.one .conditional) w [x]) :
      Produces (.one .expression) w [x]
  | arrowName {a t : Token} {w : List Token} {x : Node}
      (ht : t.Is .name) (ha : a.Is .arrow) (body : Produces .body w [x]) :
      Produces (.one .arrow) (t :: a :: w)
        [tree "arrow" (some t.pos) [tree "params" (some t.pos) [bindTree t], x]]
  | arrowParams {a : Token} {u w : List Token} {x y : Node}
      (ps : Produces (.one .params) u [x]) (ha : a.Is .arrow) (body : Produces .body w [y]) :
      Produces (.one .arrow) (u ++ a :: w) [tree "arrow" (startOf (u ++ a :: w)) [x, y]]
  | bodyBlock {w : List Token} {x : Node} (h : Produces (.one .block) w [x]) :
      Produces .body w [x]
  | bodyExpression {w : List Token} {x : Node} (h : Produces (.one .expression) w [x]) :
      Produces .body w [x]
  | conditionalOperand {w : List Token} {x : Node} (h : Produces (.one (.level .or)) w [x]) :
      Produces (.one .conditional) w [x]
  | ternary {c q : Token} {u v w : List Token} {x y z : Node}
      (condition : Produces (.one (.level .or)) u [x]) (hq : q.Is .qmark)
      (yes : Produces (.one .expression) v [y]) (hc : c.Is .colon)
      (no : Produces (.one .expression) w [z]) :
      Produces (.one .conditional) (u ++ q :: (v ++ c :: w))
        [tree "ternary" (startOf (u ++ q :: (v ++ c :: w))) [x, y, z]]
  | levelOperand {l : Level} {w : List Token} {x : Node}
      (h : Produces (.one (Rule.operand l)) w [x]) :
      Produces (.one (.level l)) w [x]
  | operation {l : Level} {op : Token} {u v : List Token} {x y : Node}
      (left : Produces (.one (.level l)) u [x]) (hop : op.IsOperator l)
      (right : Produces (.one (Rule.operand l)) v [y]) :
      Produces (.one (.level l)) (u ++ op :: v)
        [tree (operationLabel l) (startOf (u ++ op :: v)) (x :: (operatorLeaves l op ++ [y]))]
  | unarySuffixed {w : List Token} {x : Node} (h : Produces (.one .suffixed) w [x]) :
      Produces (.one .unary) w [x]
  | unaryOperation {op : Token} {w : List Token} {x : Node}
      (hop : op.IsPrefixOperator) (operand : Produces (.one .unary) w [x]) :
      Produces (.one .unary) (op :: w) [tree "unary" (some op.pos) [op.leaf, x]]
  | suffixedPrimary {w : List Token} {x : Node} (h : Produces (.one .primary) w [x]) :
      Produces (.one .suffixed) w [x]
  | call {o c : Token} {u v : List Token} {x : Node} {ns : List Node}
      (callee : Produces (.one .suffixed) u [x]) (ho : o.Is .lpar)
      (args : Produces (.list .expression) v ns) (hc : c.Is .rpar) :
      Produces (.one .suffixed) (u ++ o :: (v ++ [c]))
        [tree "call" (startOf (u ++ o :: (v ++ [c]))) (x :: ns)]
  | member {o t : Token} {u : List Token} {x : Node}
      (receiver : Produces (.one .suffixed) u [x]) (ho : o.Is .dot) (ht : t.Is .name) :
      Produces (.one .suffixed) (u ++ [o, t]) [tree "member" (startOf (u ++ [o, t])) [x, t.leaf]]
  | index {o c : Token} {u v : List Token} {x y : Node}
      (receiver : Produces (.one .suffixed) u [x]) (ho : o.Is .lsqb)
      (position : Produces (.one .expression) v [y]) (hc : c.Is .rsqb) :
      Produces (.one .suffixed) (u ++ o :: (v ++ [c]))
        [tree "index" (startOf (u ++ o :: (v ++ [c]))) [x, y]]
  | number {t : Token} (ht : t.Is .number) :
      Produces (.one .primary) [t] [tree "number" (some t.pos) [t.leaf]]
  | string {t : Token} (ht : t.Is .string) :
      Produces (.one .primary) [t] [tree "string" (some t.pos) [t.leaf]]
  | trueWord {t : Token} (ht : t.Is (.keyword .trueWord)) :
      Produces (.one .primary) [t] [tree "true" (some t.pos) []]
  | falseWord {t : Token} (ht : t.Is (.keyword .falseWord)) :
      Produces (.one .primary) [t] [tree "false" (some t.pos) []]
  | reference {t : Token} (ht : t.Is .name) :
      Produces (.one .primary) [t] [referenceTree t]
  | primaryArray {w : List Token} {x : Node} (h : Produces (.one .array) w [x]) :
      Produces (.one .primary) w [x]
  | primaryObject {w : List Token} {x : Node} (h : Produces (.one .object) w [x]) :
      Produces (.one .primary) w [x]
  | functionExpression {t : Token} {u v : List Token} {x y : Node}
      (ht : t.Is (.keyword .functionWord)) (ps : Produces (.one .params) u [x])
      (body : Produces (.one .block) v [y]) :
      Produces (.one .primary) (t :: (u ++ v)) [tree "function_expr" (some t.pos) [x, y]]
  | parenthesized {o c : Token} {w : List Token} {x : Node}
      (ho : o.Is .lpar) (h : Produces (.one .expression) w [x]) (hc : c.Is .rpar) :
      Produces (.one .primary) (o :: (w ++ [c])) [x]
  | array {o c : Token} {w : List Token} {ns : List Node}
      (ho : o.Is .lsqb) (items : Produces (.list .expression) w ns) (hc : c.Is .rsqb) :
      Produces (.one .array) (o :: (w ++ [c])) [tree "array" (some o.pos) ns]
  | object {o c : Token} {w : List Token} {ns : List Node}
      (ho : o.Is .lbrace) (items : Produces (.list .field) w ns) (hc : c.Is .rbrace) :
      Produces (.one .object) (o :: (w ++ [c])) [tree "object" (some o.pos) ns]
  | field {k c : Token} {w : List Token} {x : Node}
      (hk : k.IsKey) (hc : c.Is .colon) (value : Produces (.one .expression) w [x]) :
      Produces (.one .field) (k :: c :: w) [tree "field" (some k.pos) [keyTree k, x]]
  | fieldShorthand {t : Token} (ht : t.Is .name) :
      Produces (.one .field) [t] [tree "field" (some t.pos) [shorthandKeyTree t, referenceTree t]]
  -- Statements
  | start {w : List Token} {ns : List Node} (h : Produces .statements w ns) :
      Produces (.one .start) w [tree "program" (startOf w) ns]
  | statementsNil : Produces .statements [] []
  | statementsLast {w : List Token} {x : Node} (h : Produces (.one .simpleStatement) w [x]) :
      Produces .statements w [x]
  | statementsSemicolon {s : Token} {v : List Token} {ns : List Node}
      (hs : s.Is .semicolon) (others : Produces .statements v ns) :
      Produces .statements (s :: v) ns
  | statementsSimple {s : Token} {u v : List Token} {x : Node} {ns : List Node}
      (h : Produces (.one .simpleStatement) u [x]) (hs : s.Is .semicolon)
      (others : Produces .statements v ns) :
      Produces .statements (u ++ s :: v) (x :: ns)
  | statementsCompound {u v : List Token} {x : Node} {ns : List Node}
      (h : Produces (.one .compoundStatement) u [x]) (others : Produces .statements v ns) :
      Produces .statements (u ++ v) (x :: ns)
  | block {o c : Token} {w : List Token} {ns : List Node}
      (ho : o.Is .lbrace) (h : Produces .statements w ns) (hc : c.Is .rbrace) :
      Produces (.one .block) (o :: (w ++ [c])) [tree "block" (some o.pos) ns]
  | simpleDeclaration {w : List Token} {x : Node} (h : Produces (.one .declaration) w [x]) :
      Produces (.one .simpleStatement) w [x]
  | simpleReturn {w : List Token} {x : Node} (h : Produces (.one .returnStatement) w [x]) :
      Produces (.one .simpleStatement) w [x]
  | simpleThrow {w : List Token} {x : Node} (h : Produces (.one .throwStatement) w [x]) :
      Produces (.one .simpleStatement) w [x]
  | expressionStatement {w : List Token} {x : Node} (h : Produces (.one .expression) w [x]) :
      Produces (.one .simpleStatement) w [tree "expr_stmt" (startOf w) [x]]
  | declaration {o t : Token} {u v : List Token} {x y : Node}
      (ht : t.IsDeclarator) (pattern : Produces (.one .pattern) u [x]) (ho : o.Is .equal)
      (value : Produces (.one .expression) v [y]) :
      Produces (.one .declaration) (t :: (u ++ o :: v)) [tree "declaration" (some t.pos) [x, y]]
  | returnNothing {t : Token} (ht : t.Is (.keyword .returnWord)) :
      Produces (.one .returnStatement) [t] [tree "return_stmt" (some t.pos) []]
  | returnValue {t : Token} {w : List Token} {x : Node}
      (ht : t.Is (.keyword .returnWord)) (value : Produces (.one .expression) w [x]) :
      Produces (.one .returnStatement) (t :: w) [tree "return_stmt" (some t.pos) [x]]
  | throwValue {t : Token} {w : List Token} {x : Node}
      (ht : t.Is (.keyword .throwWord)) (value : Produces (.one .expression) w [x]) :
      Produces (.one .throwStatement) (t :: w) [tree "throw_stmt" (some t.pos) [x]]
  | compoundFunction {w : List Token} {x : Node} (h : Produces (.one .functionDeclaration) w [x]) :
      Produces (.one .compoundStatement) w [x]
  | compoundIf {w : List Token} {x : Node} (h : Produces (.one .ifStatement) w [x]) :
      Produces (.one .compoundStatement) w [x]
  | functionDeclaration {k t : Token} {u v : List Token} {x y : Node}
      (ht : t.Is (.keyword .functionWord)) (hn : k.Is .name) (ps : Produces (.one .params) u [x])
      (body : Produces (.one .block) v [y]) :
      Produces (.one .functionDeclaration) (t :: k :: (u ++ v))
        [tree "function_decl" (some t.pos) [k.leaf, x, y]]
  | ifThen {o c t : Token} {u v : List Token} {x y : Node}
      (ht : t.Is (.keyword .ifWord)) (ho : o.Is .lpar)
      (condition : Produces (.one .expression) u [x]) (hc : c.Is .rpar)
      (yes : Produces (.one .block) v [y]) :
      Produces (.one .ifStatement) (t :: o :: (u ++ c :: v)) [tree "if_stmt" (some t.pos) [x, y]]
  | ifElse {o c q t : Token} {u v w : List Token} {x y z : Node}
      (ht : t.Is (.keyword .ifWord)) (ho : o.Is .lpar)
      (condition : Produces (.one .expression) u [x]) (hc : c.Is .rpar)
      (yes : Produces (.one .block) v [y]) (hq : q.Is (.keyword .elseWord))
      (no : Produces (.one .block) w [z]) :
      Produces (.one .ifStatement) (t :: o :: (u ++ c :: (v ++ q :: w)))
        [tree "if_stmt" (some t.pos) [x, y, z]]
  | ifElseIf {o c q t : Token} {u v w : List Token} {x y z : Node}
      (ht : t.Is (.keyword .ifWord)) (ho : o.Is .lpar)
      (condition : Produces (.one .expression) u [x]) (hc : c.Is .rpar)
      (yes : Produces (.one .block) v [y]) (hq : q.Is (.keyword .elseWord))
      (no : Produces (.one .ifStatement) w [z]) :
      Produces (.one .ifStatement) (t :: o :: (u ++ c :: (v ++ q :: w)))
        [tree "if_stmt" (some t.pos) [x, y, z]]

end Grammar

end VariantScript.Syntax
