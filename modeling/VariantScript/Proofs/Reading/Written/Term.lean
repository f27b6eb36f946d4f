import VariantScript.Proofs.Grammar.Derivation
import VariantScript.Syntax.Term

/-!
# Terms that come from texts

A term that stands in a text has no ill-formed part: every operator is one of the language, every
literal is spelled as the grammar spells it, and statements, blocks and expressions stand in their
places.  In particular no `return` stands in an expression but inside of a function.
-/

namespace VariantScript.Syntax

/-- What a term is to a script. -/
inductive Role where
  | program
  | block
  | statement
  | expression
deriving DecidableEq, Repr

/-- A key that stands in some text. -/
def Key.IsWritten (k : Key) : Prop :=
  match k.name with
  | .bare _ => True
  | .quoted literal => (Terminal.token .string).Takes literal.text.toList
  | .malformed _ | .broken _ => False

mutual

/-- A pattern that stands in some text. -/
inductive Pattern.IsWritten : Pattern → Prop where
  | name {pos : Option Position} {name : Spelling} : Pattern.IsWritten (.name pos name)
  | array {pos : Option Position} {items : List Pattern}
      (hitems : ∀ p ∈ items, Pattern.IsWritten p) : Pattern.IsWritten (.array pos items)
  | record {pos : Option Position} {fields : List PatternField}
      (hfields : ∀ f ∈ fields, PatternField.IsWritten f) : Pattern.IsWritten (.record pos fields)

/-- A field of a record pattern that stands in some text. -/
inductive PatternField.IsWritten : PatternField → Prop where
  | mk {pos : Option Position} {key : Key} {pattern : Pattern} (hkey : key.IsWritten)
      (hpattern : Pattern.IsWritten pattern) : PatternField.IsWritten (.mk pos key pattern)

end

/-- Parameters that stand in some text. -/
def Params.IsWritten (ps : Params) : Prop :=
  ∀ p ∈ ps.patterns, p.IsWritten

mutual

/-- A term that stands in some text in a role. -/
inductive Term.IsWritten : Role → Term → Prop where
  | program {pos : Option Position} {body : List Term}
      (hbody : ∀ t ∈ body, Term.IsWritten .statement t) :
      Term.IsWritten .program (.node pos (.program body))
  | block {pos : Option Position} {body : List Term}
      (hbody : ∀ t ∈ body, Term.IsWritten .statement t) :
      Term.IsWritten .block (.node pos (.block body))
  | declaration {pos : Option Position} {pattern : Pattern} {value : Term}
      (hpattern : pattern.IsWritten) (hvalue : Term.IsWritten .expression value) :
      Term.IsWritten .statement (.node pos (.declaration pattern value))
  | returnNothing {pos : Option Position} :
      Term.IsWritten .statement (.node pos .returnNothing)
  | returnValue {pos : Option Position} {value : Term}
      (hvalue : Term.IsWritten .expression value) :
      Term.IsWritten .statement (.node pos (.returnValue value))
  | throwValue {pos : Option Position} {value : Term}
      (hvalue : Term.IsWritten .expression value) :
      Term.IsWritten .statement (.node pos (.throwValue value))
  | ifThen {pos : Option Position} {condition yes : Term}
      (hcondition : Term.IsWritten .expression condition)
      (hyes : Term.IsWritten .block yes) :
      Term.IsWritten .statement (.node pos (.ifThen condition yes))
  | ifThenElse {pos : Option Position} {condition yes no : Term} {role : Role}
      (hcondition : Term.IsWritten .expression condition)
      (hyes : Term.IsWritten .block yes) (hrole : role = .block ∨ role = .statement)
      (hno : Term.IsWritten role no) :
      Term.IsWritten .statement (.node pos (.ifThenElse condition yes no))
  | functionDeclaration {pos : Option Position} {name : Spelling} {params : Params} {body : Term}
      (hparams : params.IsWritten) (hbody : Term.IsWritten .block body) :
      Term.IsWritten .statement (.node pos (.functionDeclaration name params body))
  | expressionStatement {pos : Option Position} {value : Term}
      (hvalue : Term.IsWritten .expression value) :
      Term.IsWritten .statement (.node pos (.expressionStatement value))
  | number {pos : Option Position} {literal : Spelling}
      (hliteral : (Terminal.token .number).Takes literal.text.toList) :
      Term.IsWritten .expression (.node pos (.number literal))
  | string {pos : Option Position} {literal : Spelling}
      (hliteral : (Terminal.token .string).Takes literal.text.toList) :
      Term.IsWritten .expression (.node pos (.string literal))
  | truth {pos : Option Position} {flag : Bool} :
      Term.IsWritten .expression (.node pos (.truth flag))
  | reference {pos : Option Position} {name : Spelling} :
      Term.IsWritten .expression (.node pos (.reference name))
  | array {pos : Option Position} {items : List Term}
      (hitems : ∀ t ∈ items, Term.IsWritten .expression t) :
      Term.IsWritten .expression (.node pos (.array items))
  | record {pos : Option Position} {fields : List Field}
      (hfields : ∀ f ∈ fields, Field.IsWritten f) :
      Term.IsWritten .expression (.node pos (.record fields))
  | arrow {pos : Option Position} {params : Params} {body : Term} {role : Role}
      (hparams : params.IsWritten) (hrole : role = .block ∨ role = .expression)
      (hbody : Term.IsWritten role body) :
      Term.IsWritten .expression (.node pos (.arrow params body))
  | functionExpression {pos : Option Position} {params : Params} {body : Term}
      (hparams : params.IsWritten) (hbody : Term.IsWritten .block body) :
      Term.IsWritten .expression (.node pos (.functionExpression params body))
  | call {pos : Option Position} {callee : Term} {args : List Term}
      (hcallee : Term.IsWritten .expression callee)
      (hargs : ∀ t ∈ args, Term.IsWritten .expression t) :
      Term.IsWritten .expression (.node pos (.call callee args))
  | member {pos : Option Position} {receiver : Term} {name : Spelling}
      (hreceiver : Term.IsWritten .expression receiver) :
      Term.IsWritten .expression (.node pos (.member receiver name))
  | index {pos : Option Position} {receiver position : Term}
      (hreceiver : Term.IsWritten .expression receiver)
      (hposition : Term.IsWritten .expression position) :
      Term.IsWritten .expression (.node pos (.index receiver position))
  | unary {pos : Option Position} {op : UnaryOp} {opPos : Position} {operand : Term}
      (hop : op = .not ∨ op = .negate)
      (hoperand : Term.IsWritten .expression operand) :
      Term.IsWritten .expression (.node pos (.unary op opPos operand))
  | binary {pos : Option Position} {op : BinaryOp} {opPos : Position} {left right : Term}
      (hop : ∀ text, op ≠ .unknown text)
      (hleft : Term.IsWritten .expression left)
      (hright : Term.IsWritten .expression right) :
      Term.IsWritten .expression (.node pos (.binary op opPos left right))
  | compare {pos : Option Position} {op : CompareOp} {opPos : Position} {left right : Term}
      (hop : ∀ text, op ≠ .unknown text)
      (hleft : Term.IsWritten .expression left)
      (hright : Term.IsWritten .expression right) :
      Term.IsWritten .expression (.node pos (.compare op opPos left right))
  | logical {pos : Option Position} {op : LogicalOp} {left right : Term}
      (hleft : Term.IsWritten .expression left)
      (hright : Term.IsWritten .expression right) :
      Term.IsWritten .expression (.node pos (.logical op left right))
  | conditional {pos : Option Position} {condition yes no : Term}
      (hcondition : Term.IsWritten .expression condition)
      (hyes : Term.IsWritten .expression yes)
      (hno : Term.IsWritten .expression no) :
      Term.IsWritten .expression (.node pos (.conditional condition yes no))

/-- A field of a record expression that stands in some text. -/
inductive Field.IsWritten : Field → Prop where
  | mk {pos : Option Position} {key : Key} {value : Term} (hkey : key.IsWritten)
      (hvalue : Term.IsWritten .expression value) :
      Field.IsWritten (.mk pos key value)

end

end VariantScript.Syntax
