import VariantScript.Syntax.Term
import VariantScript.Syntax.Token

/-!
# Bare trees

The labelled trees in which terms are handed out and taken in.  Every term has its tree; every tree
has a term, in which the parts without meaning are ill-formed.
-/

namespace VariantScript.Syntax

/-- A labelled tree over tokens. -/
inductive Node where
  | tree (label : String) (pos : Option Position) (children : List Node)
  | token (type text : String) (pos : Option Position)

namespace Node

/-! ## Showing trees -/

mutual
/-- How messages show a tree. -/
def display : Node → String
  | tree label _ children =>
      let shown := String.intercalate ", " (displayAll children)
      s!"Tree({Text.literal label}, [{shown}])"
  | token type text _ => showToken type text

/-- How messages show several trees. -/
def displayAll : List Node → List String
  | [] => []
  | n :: ns => n.display :: displayAll ns
end

/-- A token of a kind. -/
def leaf (kind : TokenKind) (s : Spelling) : Node :=
  .token kind.terminalName s.text (some s.pos)

/-- The text of a token; a tree where a token should be is taken as messages show it. -/
def spelled (n : Node) : Spelling :=
  match n with
  | token _ text pos => ⟨text, pos.getD .start⟩
  | tree _ pos _ => ⟨n.display, pos.getD .start⟩

/-- The trees below a tree. -/
def children : Node → List Node
  | tree _ _ children => children
  | token _ _ _ => []

/-- The place of the first token, where it is known. -/
def pos : Node → Option Position
  | tree _ pos _ => pos
  | token _ _ pos => pos

/-- How messages name the type of a tree. -/
def treeTypeName : String := "Tree"

end Node

/-! ## From terms to trees -/

/-- The tree of a key. -/
def Key.toNode (k : Key) : Node :=
  match k.name with
  | .bare name => .tree "key" k.pos [.leaf .name name]
  | .quoted literal => .tree "key" k.pos [.leaf .string literal]
  | .malformed shown => .tree "key" k.pos [.tree shown none []]
  | .broken _ => .tree "key" k.pos []

mutual
/-- The tree of a pattern. -/
def Pattern.toNode : Pattern → Node
  | .name pos name => .tree "bind_name" pos [.leaf .name name]
  | .array pos items => .tree "array_pattern" pos (Pattern.toNodes items)
  | .record pos fields => .tree "object_pattern" pos (PatternField.toNodes fields)
  | .unsupported label => .tree label none []
  | .broken _ => .tree "bind_name" none []

/-- The trees of patterns. -/
def Pattern.toNodes : List Pattern → List Node
  | [] => []
  | p :: ps => p.toNode :: Pattern.toNodes ps

/-- The tree of a field of a record pattern. -/
def PatternField.toNode : PatternField → Node
  | .mk pos key pattern => .tree "pattern_field" pos [key.toNode, pattern.toNode]
  | .broken _ => .tree "pattern_field" none []

/-- The trees of fields of a record pattern. -/
def PatternField.toNodes : List PatternField → List Node
  | [] => []
  | f :: fs => f.toNode :: PatternField.toNodes fs
end

/-- The tree of parameters. -/
def Params.toNode (ps : Params) : Node :=
  .tree "params" ps.pos (Pattern.toNodes ps.patterns)

/-- The kind of token that an operator is. -/
def UnaryOp.kind : UnaryOp → TokenKind
  | .not => .bang
  | _ => .minus

/-- The kind of token that an operator is. -/
def BinaryOp.kind : BinaryOp → TokenKind
  | .add => .plus
  | .subtract => .minus
  | _ => .mulOp

/-- The kind of token that an operator is. -/
def CompareOp.kind : CompareOp → TokenKind
  | .same | .looselySame | .differs | .looselyDiffers => .eqOp
  | _ => .relOp

mutual
/-- The tree of a term. -/
def Term.toNode : Term → Node
  | .node pos form => form.toNode pos

/-- The tree of a form at a place. -/
def Form.toNode (pos : Option Position) : Form → Node
  | .program body => .tree "program" pos (Term.toNodes body)
  | .block body => .tree "block" pos (Term.toNodes body)
  | .declaration pattern value => .tree "declaration" pos [pattern.toNode, value.toNode]
  | .returnNothing => .tree "return_stmt" pos []
  | .returnValue value => .tree "return_stmt" pos [value.toNode]
  | .throwValue value => .tree "throw_stmt" pos [value.toNode]
  | .ifThen condition yes => .tree "if_stmt" pos [condition.toNode, yes.toNode]
  | .ifThenElse condition yes no =>
      .tree "if_stmt" pos [condition.toNode, yes.toNode, no.toNode]
  | .functionDeclaration name params body =>
      .tree "function_decl" pos [.leaf .name name, params.toNode, body.toNode]
  | .expressionStatement value => .tree "expr_stmt" pos [value.toNode]
  | .number literal => .tree "number" pos [.leaf .number literal]
  | .string literal => .tree "string" pos [.leaf .string literal]
  | .truth flag => .tree (if flag then "true" else "false") pos []
  | .reference name => .tree "var" pos [.leaf .name name]
  | .array items => .tree "array" pos (Term.toNodes items)
  | .record fields => .tree "object" pos (Field.toNodes fields)
  | .arrow params body => .tree "arrow" pos [params.toNode, body.toNode]
  | .functionExpression params body => .tree "function_expr" pos [params.toNode, body.toNode]
  | .call callee args => .tree "call" pos (callee.toNode :: Term.toNodes args)
  | .member receiver name => .tree "member" pos [receiver.toNode, .leaf .name name]
  | .index receiver position => .tree "index" pos [receiver.toNode, position.toNode]
  | .unary op opPos operand =>
      .tree "unary" pos [.leaf op.kind ⟨op.spelling, opPos⟩, operand.toNode]
  | .binary op opPos left right =>
      .tree "binary" pos [left.toNode, .leaf op.kind ⟨op.spelling, opPos⟩, right.toNode]
  | .compare op opPos left right =>
      .tree "compare" pos [left.toNode, .leaf op.kind ⟨op.spelling, opPos⟩, right.toNode]
  | .logical .and left right => .tree "and_expr" pos [left.toNode, right.toNode]
  | .logical .or left right => .tree "or_expr" pos [left.toNode, right.toNode]
  | .conditional condition yes no =>
      .tree "ternary" pos [condition.toNode, yes.toNode, no.toNode]
  | .illFormed (.unknownNode label) => .tree label pos []
  | .illFormed (.unhandledToken type text) => .token type text pos
  | .illFormed (.wrongShape label _) => .tree label pos []
  | .illFormed (.wrongFunction _) => .tree "function_decl" pos []

/-- The trees of terms. -/
def Term.toNodes : List Term → List Node
  | [] => []
  | t :: ts => t.toNode :: Term.toNodes ts

/-- The tree of a field. -/
def Field.toNode : Field → Node
  | .mk pos key value => .tree "field" pos [key.toNode, value.toNode]
  | .broken _ => .tree "field" none []

/-- The trees of fields. -/
def Field.toNodes : List Field → List Node
  | [] => []
  | f :: fs => f.toNode :: Field.toNodes fs
end

/-! ## From trees to terms -/

/-- What a token names as a key. -/
def KeyName.ofNode : Node → KeyName
  | .token type text pos =>
      if type = TokenKind.string.terminalName then .quoted (Node.token type text pos).spelled
      else if type = TokenKind.name.terminalName then .bare (Node.token type text pos).spelled
      else .malformed (Node.token type text pos).display
  | n => .malformed n.display

/-- The key that a tree stands for: a token, or a tree with the label of keys around one. -/
def Key.ofNode : Node → Key
  | .tree "key" pos (n :: _) => ⟨pos, .ofNode n⟩
  | .tree "key" pos [] => ⟨pos, .broken .noItem⟩
  | n => ⟨n.pos, .ofNode n⟩

mutual
/-- The pattern that a tree stands for. -/
def Pattern.ofNode : Node → Pattern
  | .tree "bind_name" pos (name :: _) => .name pos name.spelled
  | .tree "bind_name" _ [] => .broken .noItem
  | .tree "array_pattern" pos items => .array pos (Pattern.ofNodes items)
  | .tree "object_pattern" pos fields => .record pos (PatternField.ofNodes fields)
  | .tree label _ _ => .unsupported label
  | .token _ _ _ => .unsupported "None"

/-- The patterns that trees stand for. -/
def Pattern.ofNodes : List Node → List Pattern
  | [] => []
  | n :: ns => Pattern.ofNode n :: Pattern.ofNodes ns

/-- The field of a record pattern that a tree stands for. -/
def PatternField.ofNode : Node → PatternField
  | .tree _ pos [key, pattern] => .mk pos (.ofNode key) (Pattern.ofNode pattern)
  | n => .broken (.ofParts 2 n.children.length)

/-- The fields of a record pattern that trees stand for. -/
def PatternField.ofNodes : List Node → List PatternField
  | [] => []
  | n :: ns => PatternField.ofNode n :: PatternField.ofNodes ns
end

/-- The parameters that a tree stands for. -/
def Params.ofNode (n : Node) : Params :=
  ⟨n.pos, Pattern.ofNodes n.children⟩

/-- The unary operator that a token is, by the kind of the token. -/
def UnaryOp.ofNode : Node → UnaryOp
  | .token type text _ =>
      if type = TokenKind.bang.terminalName then .not
      else if type = TokenKind.minus.terminalName then .negate
      else .unknown text
  | n => .unknown n.spelled.text

/-- What is wrong with a tree of a label that does not take its number of children. -/
def Problem.ofShape (label : String) (count : Nat) : Problem :=
  match label with
  | "number" | "string" | "var" | "expr_stmt" | "throw_stmt" => .wrongShape label .noItem
  | "declaration" | "arrow" | "function_expr" | "member" | "index" | "unary" | "and_expr"
  | "or_expr" => .wrongShape label (.ofParts 2 count)
  | "binary" | "compare" | "ternary" => .wrongShape label (.ofParts 3 count)
  | "call" => .wrongShape label (.tooFewLeading 1 count)
  | "if_stmt" => .wrongShape label (.tooFewLeading 2 count)
  | "function_decl" => .wrongFunction (.ofParts 3 count)
  | _ => .unknownNode label

/-- What is wrong with a literal that is no token but a tree. -/
def Problem.ofLiteral (label : String) : Problem :=
  .wrongShape label (.noAttribute Node.treeTypeName "value")

mutual
/-- The term that a tree stands for; children that its label does not ask for are left out. -/
def Term.ofNode : Node → Term
  | .token type text pos => .node pos (.illFormed (.unhandledToken type text))
  | .tree label pos children =>
      .node pos <|
        match label, children with
        | "program", body => .program (Term.ofNodes body)
        | "block", body => .block (Term.ofNodes body)
        | "declaration", [pattern, value] => .declaration (.ofNode pattern) (Term.ofNode value)
        | "return_stmt", [] => .returnNothing
        | "return_stmt", value :: _ => .returnValue (Term.ofNode value)
        | "throw_stmt", value :: _ => .throwValue (Term.ofNode value)
        | "if_stmt", [condition, yes] => .ifThen (Term.ofNode condition) (Term.ofNode yes)
        | "if_stmt", condition :: yes :: no :: _ =>
            .ifThenElse (Term.ofNode condition) (Term.ofNode yes) (Term.ofNode no)
        | "function_decl", [name, params, body] =>
            .functionDeclaration name.spelled (.ofNode params) (Term.ofNode body)
        | "expr_stmt", value :: _ => .expressionStatement (Term.ofNode value)
        | "number", .tree _ _ _ :: _ | "string", .tree _ _ _ :: _ => .illFormed (.ofLiteral label)
        | "number", literal :: _ => .number literal.spelled
        | "string", literal :: _ => .string literal.spelled
        | "true", _ => .truth true
        | "false", _ => .truth false
        | "var", name :: _ => .reference name.spelled
        | "array", items => .array (Term.ofNodes items)
        | "object", fields => .record (Field.ofNodes fields)
        | "arrow", [params, body] => .arrow (.ofNode params) (Term.ofNode body)
        | "function_expr", [params, body] =>
            .functionExpression (.ofNode params) (Term.ofNode body)
        | "call", callee :: args => .call (Term.ofNode callee) (Term.ofNodes args)
        | "member", [receiver, name] => .member (Term.ofNode receiver) name.spelled
        | "index", [receiver, position] =>
            .index (Term.ofNode receiver) (Term.ofNode position)
        | "unary", [op, operand] =>
            .unary (.ofNode op) op.spelled.pos (Term.ofNode operand)
        | "binary", [left, op, right] =>
            .binary (.ofSpelling op.spelled.text) op.spelled.pos (Term.ofNode left)
              (Term.ofNode right)
        | "compare", [left, op, right] =>
            .compare (.ofSpelling op.spelled.text) op.spelled.pos (Term.ofNode left)
              (Term.ofNode right)
        | "and_expr", [left, right] => .logical .and (Term.ofNode left) (Term.ofNode right)
        | "or_expr", [left, right] => .logical .or (Term.ofNode left) (Term.ofNode right)
        | "ternary", [condition, yes, no] =>
            .conditional (Term.ofNode condition) (Term.ofNode yes) (Term.ofNode no)
        | _, _ => .illFormed (.ofShape label children.length)

/-- The terms that trees stand for. -/
def Term.ofNodes : List Node → List Term
  | [] => []
  | n :: ns => Term.ofNode n :: Term.ofNodes ns

/-- The field that a tree stands for. -/
def Field.ofNode : Node → Field
  | .tree _ pos [key, value] => .mk pos (.ofNode key) (Term.ofNode value)
  | n => .broken (.ofParts 2 n.children.length)

/-- The fields that trees stand for. -/
def Field.ofNodes : List Node → List Field
  | [] => []
  | n :: ns => Field.ofNode n :: Field.ofNodes ns
end

end VariantScript.Syntax
