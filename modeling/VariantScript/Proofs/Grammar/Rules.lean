import VariantScript.Syntax.Node
import VariantScript.Syntax.Phrase

/-!
# The rules of the grammar

The context-free grammar of the script language, as data.  A rule has alternatives; an alternative
is an expansion into tokens and rules, and may rename the tree that it makes.  Marks and words are
matched and left out of the tree, while named terminals are kept in it.

The six levels of operators are one family of rules.  The preference for a block over a record
behind an arrow is no part of the language and is not in the rules.
-/

namespace VariantScript.Syntax.Grammar

open Phrase (Level)

/-- The rules, by what they describe. -/
inductive Rule where
  | start
  | terminated
  | simpleStatement
  | compoundStatement
  | declaration
  | returnStatement
  | throwStatement
  | functionDeclaration
  | ifStatement
  | block
  | params
  | pattern
  | patternField
  | expression
  | arrow
  | singleParam
  | conditional
  | level (l : Level)
  | unary
  | suffixed
  | primary
  | array
  | object
  | field
  | key
deriving DecidableEq, Repr

/-- What an alternative expands to. -/
inductive Expansion where
  | empty
  /-- A token that is left out of the tree. -/
  | mark (kind : TokenKind)
  /-- A token that is kept in the tree. -/
  | terminal (kind : TokenKind)
  | rule (r : Rule)
  | seq (first second : Expansion)
  | either (first second : Expansion)
  | optional (e : Expansion)
  | many (e : Expansion)
deriving DecidableEq, Repr

/-- What becomes of the children of a rule where the alternative has no label of its own. -/
inductive Shape where
  /-- They are put under the label of the rule. -/
  | labelled
  /-- An only child takes the place of the tree. -/
  | collapsing
  /-- They take the place of the tree. -/
  | inlined
deriving DecidableEq, Repr

namespace Expansion

/-- Expansions one behind the other. -/
def sequence : List Expansion → Expansion
  | [] => empty
  | [e] => e
  | e :: es => seq e (sequence es)

/-- A reserved word. -/
def word (w : Keyword) : Expansion := mark (.keyword w)

/-- Any number of expansions with commas between them and perhaps behind the last. -/
def commaList (e : Expansion) : Expansion :=
  optional (sequence [e, many (sequence [mark .comma, e]), optional (mark .comma)])

/-- Statements; the last one may lack its semicolon. -/
def statements : Expansion :=
  sequence [many (rule .terminated), optional (rule .simpleStatement)]

/-- The operators of a level. -/
def operators : Level → Expansion
  | .or => mark .orOr
  | .and => mark .andAnd
  | .equality => terminal .eqOp
  | .relation => terminal .relOp
  | .sum => either (terminal .plus) (terminal .minus)
  | .product => terminal .mulOp

end Expansion

/-- The label of a tree that joins two operands of a level. -/
def operationLabel : Level → String
  | .or => "or_expr"
  | .and => "and_expr"
  | .equality | .relation => "compare"
  | .sum | .product => "binary"

namespace Rule

/-- The rule of the operands that a level joins. -/
def operand (l : Level) : Rule :=
  match l.tighter? with
  | some tighter => level tighter
  | none => unary

/-- The label of the trees of a rule. -/
def label : Rule → String
  | start => "start"
  | terminated => "_terminated"
  | simpleStatement => "simple_stmt"
  | compoundStatement => "compound_stmt"
  | declaration => "declaration"
  | returnStatement => "return_stmt"
  | throwStatement => "throw_stmt"
  | functionDeclaration => "function_decl"
  | ifStatement => "if_stmt"
  | block => "block"
  | params => "params"
  | pattern => "pattern"
  | patternField => "pattern_field"
  | expression => "expr"
  | arrow => "arrow"
  | singleParam => "single_param"
  | conditional => "conditional"
  | level .or => "logic_or"
  | level .and => "logic_and"
  | level .equality => "equality"
  | level .relation => "relational"
  | level .sum => "additive"
  | level .product => "multiplicative"
  | unary => "unary"
  | suffixed => "postfix"
  | primary => "primary"
  | array => "array"
  | object => "object"
  | field => "field"
  | key => "key"

/-- What becomes of the children of a rule. -/
def shape : Rule → Shape
  | terminated => .inlined
  | simpleStatement | compoundStatement | pattern | expression | conditional | level _ | unary
  | suffixed | primary => .collapsing
  | _ => .labelled

open Expansion

/-- The alternatives of a rule, each with the label that it gives to its tree, if it has one. -/
def alternatives : Rule → List (Expansion × Option String)
  | start => [(statements, none)]
  | terminated =>
      [(sequence [rule simpleStatement, mark .semicolon], none),
        (rule compoundStatement, none),
        (mark .semicolon, none)]
  | simpleStatement =>
      [(rule declaration, none),
        (rule returnStatement, none),
        (rule throwStatement, none),
        (rule expression, some "expr_stmt")]
  | compoundStatement =>
      [(rule functionDeclaration, none),
        (rule ifStatement, none)]
  | declaration =>
      [(sequence [either (word .constWord) (either (word .letWord) (word .varWord)), rule pattern,
          mark .equal, rule expression], none)]
  | returnStatement => [(sequence [word .returnWord, optional (rule expression)], none)]
  | throwStatement => [(sequence [word .throwWord, rule expression], none)]
  | functionDeclaration =>
      [(sequence [word .functionWord, terminal .name, rule params, rule block], none)]
  | ifStatement =>
      [(sequence [word .ifWord, mark .lpar, rule expression, mark .rpar, rule block,
          optional (sequence [word .elseWord, either (rule block) (rule ifStatement)])], none)]
  | block => [(sequence [mark .lbrace, statements, mark .rbrace], none)]
  | params => [(sequence [mark .lpar, commaList (rule pattern), mark .rpar], none)]
  | pattern =>
      [(terminal .name, some "bind_name"),
        (sequence [mark .lsqb, commaList (rule pattern), mark .rsqb], some "array_pattern"),
        (sequence [mark .lbrace, commaList (rule patternField), mark .rbrace],
          some "object_pattern")]
  | patternField =>
      [(sequence [rule key, mark .colon, rule pattern], none),
        (terminal .name, some "pattern_shorthand")]
  | expression =>
      [(rule arrow, none),
        (rule conditional, none)]
  | arrow =>
      [(sequence [either (rule singleParam) (rule params), mark .arrow,
          either (rule block) (rule expression)], none)]
  | singleParam => [(terminal .name, none)]
  | conditional =>
      [(rule (level .or), none),
        (sequence [rule (level .or), mark .qmark, rule expression, mark .colon, rule expression],
          some "ternary")]
  | level l =>
      [(rule (operand l), none),
        (sequence [rule (level l), operators l, rule (operand l)], some (operationLabel l))]
  | unary =>
      [(rule suffixed, none),
        (sequence [either (terminal .bang) (terminal .minus), rule unary], some "unary")]
  | suffixed =>
      [(rule primary, none),
        (sequence [rule suffixed, mark .lpar, commaList (rule expression), mark .rpar],
          some "call"),
        (sequence [rule suffixed, mark .dot, terminal .name], some "member"),
        (sequence [rule suffixed, mark .lsqb, rule expression, mark .rsqb], some "index")]
  | primary =>
      [(terminal .number, some "number"),
        (terminal .string, some "string"),
        (word .trueWord, some "true"),
        (word .falseWord, some "false"),
        (terminal .name, some "var"),
        (rule array, none),
        (rule object, none),
        (sequence [word .functionWord, rule params, rule block], some "function_expr"),
        (sequence [mark .lpar, rule expression, mark .rpar], none)]
  | array => [(sequence [mark .lsqb, commaList (rule expression), mark .rsqb], none)]
  | object => [(sequence [mark .lbrace, commaList (rule field), mark .rbrace], none)]
  | field =>
      [(sequence [rule key, mark .colon, rule expression], none),
        (terminal .name, some "shorthand_field")]
  | key =>
      [(terminal .name, none),
        (terminal .string, none)]

end Rule

end VariantScript.Syntax.Grammar
