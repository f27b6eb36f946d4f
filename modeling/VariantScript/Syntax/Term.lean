import VariantScript.Breakdown
import VariantScript.Position

/-!
# Syntax terms

The tree of a script.  Every term has a form and, if it comes from a text, the position of its first
token; names, literals and operators keep the place of their own token.  Shorthands have been
spelled out: a field always has a key and a value, an arrow always a list of parameters.

A term can also be built from a bare tree that no text produces.  What has no meaning in it becomes
an ill-formed term, pattern, field or key, which fails or breaks down only when it is evaluated;
terms read from a text hold none.
-/

namespace VariantScript.Syntax

/-- The text of a token and the place where it stands. -/
structure Spelling where
  text : String
  pos : Position
deriving DecidableEq, Repr

/-- What names a field. -/
inductive KeyName where
  | bare (name : Spelling)
  | quoted (literal : Spelling)
  | malformed (shown : String)
  | broken (breakdown : Breakdown)
deriving DecidableEq, Repr

/-- The key of a field; the key of a shorthand field has no position of its own. -/
structure Key where
  pos : Option Position
  name : KeyName
deriving DecidableEq, Repr

mutual
/-- What a value is taken apart by. -/
inductive Pattern where
  | name (pos : Option Position) (name : Spelling)
  | array (pos : Option Position) (items : List Pattern)
  | record (pos : Option Position) (fields : List PatternField)
  | unsupported (label : String)
  | broken (breakdown : Breakdown)

/-- One field of a record pattern. -/
inductive PatternField where
  | mk (pos : Option Position) (key : Key) (pattern : Pattern)
  | broken (breakdown : Breakdown)
end

/-- The parameters of a function. -/
structure Params where
  pos : Option Position
  patterns : List Pattern

/-- Operators before an operand. -/
inductive UnaryOp where
  | not
  | negate
  | unknown (text : String)
deriving DecidableEq, Repr

/-- Operators of arithmetic. -/
inductive BinaryOp where
  | add
  | subtract
  | multiply
  | divide
  | remainder
  | unknown (text : String)
deriving DecidableEq, Repr

/-- Operators of comparison; equality and its negation have two spellings each. -/
inductive CompareOp where
  | same
  | looselySame
  | differs
  | looselyDiffers
  | less
  | lessOrSame
  | greater
  | greaterOrSame
  | unknown (text : String)
deriving DecidableEq, Repr

/-- Operators that may skip their right operand. -/
inductive LogicalOp where
  | and
  | or
deriving DecidableEq, Repr

namespace UnaryOp

/-- How the operator is spelled. -/
def spelling : UnaryOp → String
  | not => "!"
  | negate => "-"
  | unknown text => text

end UnaryOp

namespace BinaryOp

/-- How the operator is spelled. -/
def spelling : BinaryOp → String
  | add => "+"
  | subtract => "-"
  | multiply => "*"
  | divide => "/"
  | remainder => "%"
  | unknown text => text

/-- The operator of a spelling. -/
def ofSpelling (text : String) : BinaryOp :=
  if text = "+" then add
  else if text = "-" then subtract
  else if text = "*" then multiply
  else if text = "/" then divide
  else if text = "%" then remainder
  else unknown text

end BinaryOp

namespace CompareOp

/-- How the operator is spelled. -/
def spelling : CompareOp → String
  | same => "==="
  | looselySame => "=="
  | differs => "!=="
  | looselyDiffers => "!="
  | less => "<"
  | lessOrSame => "<="
  | greater => ">"
  | greaterOrSame => ">="
  | unknown text => text

/-- The operator of a spelling. -/
def ofSpelling (text : String) : CompareOp :=
  if text = "===" then same
  else if text = "==" then looselySame
  else if text = "!==" then differs
  else if text = "!=" then looselyDiffers
  else if text = "<" then less
  else if text = "<=" then lessOrSame
  else if text = ">" then greater
  else if text = ">=" then greaterOrSame
  else unknown text

end CompareOp

/-- How a logical operator is spelled. -/
def LogicalOp.spelling : LogicalOp → String
  | .and => "&&"
  | .or => "||"

/-- Why a bare tree has no meaning. -/
inductive Problem where
  | unknownNode (label : String)
  | unhandledToken (type text : String)
  /-- A known label with children that it does not take. -/
  | wrongShape (label : String) (breakdown : Breakdown)
  /-- A function declaration with children that it does not take; it breaks down where functions are
  defined and means nothing elsewhere. -/
  | wrongFunction (breakdown : Breakdown)
deriving DecidableEq, Repr

mutual
/-- A node of the tree of a script. -/
inductive Term where
  | node (pos : Option Position) (form : Form)

/-- What a node is: a sequence of statements, a statement or an expression. -/
inductive Form where
  | program (body : List Term)
  | block (body : List Term)
  | declaration (pattern : Pattern) (value : Term)
  | returnNothing
  | returnValue (value : Term)
  | throwValue (value : Term)
  | ifThen (condition yes : Term)
  | ifThenElse (condition yes no : Term)
  | functionDeclaration (name : Spelling) (params : Params) (body : Term)
  | expressionStatement (value : Term)
  | number (literal : Spelling)
  | string (literal : Spelling)
  | truth (flag : Bool)
  | reference (name : Spelling)
  | array (items : List Term)
  | record (fields : List Field)
  | arrow (params : Params) (body : Term)
  | functionExpression (params : Params) (body : Term)
  | call (callee : Term) (args : List Term)
  | member (receiver : Term) (name : Spelling)
  | index (receiver position : Term)
  | unary (op : UnaryOp) (opPos : Position) (operand : Term)
  | binary (op : BinaryOp) (opPos : Position) (left right : Term)
  | compare (op : CompareOp) (opPos : Position) (left right : Term)
  | logical (op : LogicalOp) (left right : Term)
  | conditional (condition yes no : Term)
  | illFormed (problem : Problem)

/-- One field of a record expression. -/
inductive Field where
  | mk (pos : Option Position) (key : Key) (value : Term)
  | broken (breakdown : Breakdown)
end

namespace Term

/-- The position of the first token of the term. -/
def pos : Term → Option Position
  | node pos _ => pos

/-- The form of the term. -/
def form : Term → Form
  | node _ form => form

/-- Whether the term is a block. -/
def isBlock : Term → Bool
  | node _ (.block _) => true
  | _ => false

/-- Whether the term is an expression used as a statement. -/
def isExpressionStatement : Term → Bool
  | node _ (.expressionStatement _) => true
  | _ => false

end Term

end VariantScript.Syntax
