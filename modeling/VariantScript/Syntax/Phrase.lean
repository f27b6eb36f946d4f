import VariantScript.Syntax.Term
import VariantScript.Syntax.Token

/-!
# Phrases

How terms are read from tokens.  Each kind of phrase has a function that takes tokens from the head
of a list and answers with the phrase and the tokens behind it, or with the tokens from the first one
on that cannot go on any script that starts like this.  A reply carries the proof that the rest is
shorter, which is what the recursion ends by.

Two places need more than the next token.  A parenthesis at the start of an expression may open the
parameters of an arrow: they are tried first and count if an arrow follows.  A brace behind an arrow
may open a block or a record; where both readings fit, it is the block.
-/

namespace VariantScript.Syntax

/-- What reading a phrase from fewer than `n` tokens ends in. -/
inductive Reply (α : Type) (n : Nat) where
  | ok (value : α) (rest : List Token) (short : rest.length < n)
  | fail (rest : List Token)

namespace Reply

variable {α β : Type} {m n : Nat}

/-- A phrase that was read, and the tokens behind it. -/
def done (value : α) (rest : List Token)
    (short : rest.length < n := by (try simp only [List.length_cons] at *); omega) : Reply α n :=
  .ok value rest short

/-- The reply with its phrase changed, under a bound that may be larger. -/
def map (r : Reply α m) (f : α → β)
    (h : m ≤ n := by (try simp only [List.length_cons] at *); omega) : Reply β n :=
  match r with
  | .ok value rest short => .ok (f value) rest (Nat.lt_of_lt_of_le short h)
  | .fail rest => .fail rest

/-- The same reply under a bound that may be larger. -/
def loosen (r : Reply α m)
    (h : m ≤ n := by (try simp only [List.length_cons] at *); omega) : Reply α n :=
  r.map id h

/-- Reads on behind a phrase, under a bound that may be larger. -/
def andThen (r : Reply α m)
    (f : (value : α) → (rest : List Token) → rest.length < m → Reply β n) : Reply β n :=
  match r with
  | .ok value rest short => f value rest short
  | .fail rest => .fail rest

/-- A failure here or where another reading failed, whichever lies further on. -/
def orFurther (r : Reply α n) (other : List Token) : Reply α n :=
  match r with
  | .ok value rest short => .ok value rest short
  | .fail rest => .fail (if other.length < rest.length then other else rest)

end Reply

/-- A token of a given kind. -/
def expect (kind : TokenKind) (ts : List Token) : Reply Token ts.length :=
  match ts with
  | t :: rest => if t.kind = kind then .done t rest else .fail (t :: rest)
  | [] => .fail []

/-- The place of the first token. -/
def startOf (ts : List Token) : Option Position :=
  ts.head?.map (·.pos)

/-- The text and place of a token. -/
def Token.spelled (t : Token) : Spelling := ⟨t.text, t.pos⟩

namespace Phrase

/-! ## Patterns -/

/-- A key written out before a colon. -/
def keyOf (t : Token) : Key :=
  ⟨some t.pos, if t.kind = .string then .quoted t.spelled else .bare t.spelled⟩

/-- The key of a shorthand field. -/
def shorthandKey (t : Token) : Key :=
  ⟨none, .bare t.spelled⟩

/-- The pattern that binds one name. -/
def bindName (t : Token) : Pattern :=
  .name (some t.pos) t.spelled

mutual
/-- A pattern: a name, or an array or record of patterns. -/
def pattern (ts : List Token) : Reply Pattern ts.length :=
  match ts with
  | [] => .fail []
  | t :: rest =>
      match t.kind with
      | .name => .done (bindName t) rest
      | .lsqb => (patterns .rsqb rest).map (.array (some t.pos))
      | .lbrace => (patternFields rest).map (.record (some t.pos))
      | _ => .fail (t :: rest)
termination_by 2 * ts.length

/-- Patterns with commas between them and perhaps behind the last, up to a closing mark. -/
def patterns (close : TokenKind) (ts : List Token) : Reply (List Pattern) ts.length :=
  match ts with
  | [] => .fail []
  | t :: rest =>
      if t.kind = close then .done [] rest
      else
        (pattern (t :: rest)).andThen fun p behind _ =>
          match behind with
          | [] => .fail []
          | u :: more =>
              if u.kind = .comma then (patterns close more).map (p :: ·)
              else if u.kind = close then .done [p] more
              else .fail (u :: more)
termination_by 2 * ts.length + 1
decreasing_by all_goals ((try simp only [List.length_cons] at *); omega)

/-- The fields of a record pattern, up to the closing brace. -/
def patternFields (ts : List Token) : Reply (List PatternField) ts.length :=
  match ts with
  | [] => .fail []
  | t :: rest =>
      if t.kind = .rbrace then .done [] rest
      else
        (patternField (t :: rest)).andThen fun f behind _ =>
          match behind with
          | [] => .fail []
          | u :: more =>
              if u.kind = .comma then (patternFields more).map (f :: ·)
              else if u.kind = .rbrace then .done [f] more
              else .fail (u :: more)
termination_by 2 * ts.length + 1
decreasing_by all_goals ((try simp only [List.length_cons] at *); omega)

/-- One field of a record pattern; a name alone stands for a field bound to its own name. -/
def patternField (ts : List Token) : Reply PatternField ts.length :=
  match ts with
  | [] => .fail []
  | [t] => if t.kind = .name then .done (shorthand t) []
      else if t.kind = .string then .fail [] else .fail [t]
  | t :: u :: rest =>
      if t.kind = .name ∨ t.kind = .string then
        if u.kind = .colon then
          (pattern rest).map (.mk (some t.pos) (keyOf t))
        else if t.kind = .name then .done (shorthand t) (u :: rest)
        else .fail (u :: rest)
      else .fail (t :: u :: rest)
termination_by 2 * ts.length
decreasing_by all_goals ((try simp only [List.length_cons] at *); omega)
where
  /-- The field that a name alone stands for. -/
  shorthand (t : Token) : PatternField := .mk (some t.pos) (shorthandKey t) (bindName t)
end

/-- The parameters of a function, in parentheses. -/
def params (ts : List Token) : Reply Params ts.length :=
  (expect .lpar ts).andThen fun t rest _ =>
    (patterns .rpar rest).map fun ps => ⟨some t.pos, ps⟩

/-! ## Expressions and statements -/

/-- The levels of operators, from the loosest to the tightest. -/
inductive Level where
  | or
  | and
  | equality
  | relation
  | sum
  | product
deriving DecidableEq, Repr

namespace Level

/-- How many levels are at least as tight. -/
def rank : Level → Nat
  | or => 6
  | and => 5
  | equality => 4
  | relation => 3
  | sum => 2
  | product => 1

/-- The next tighter level. -/
def tighter? : Level → Option Level
  | or => some and
  | and => some equality
  | equality => some relation
  | relation => some sum
  | sum => some product
  | product => none

theorem rank_tighter {l k : Level} (h : l.tighter? = some k) : k.rank + 1 = l.rank := by
  cases l <;> cases h <;> rfl

theorem rank_pos (l : Level) : 0 < l.rank := by
  cases l <;> decide

/-- Whether a kind of token is an operator of the level. -/
def accepts : Level → TokenKind → Bool
  | or, kind => kind = .orOr
  | and, kind => kind = .andAnd
  | equality, kind => kind = .eqOp
  | relation, kind => kind = .relOp
  | sum, kind => kind = .plus || kind = .minus
  | product, kind => kind = .mulOp

/-- The form that an operator of the level makes of two operands. -/
def combine (l : Level) (op : Token) (left right : Term) : Form :=
  match l with
  | or => .logical .or left right
  | and => .logical .and left right
  | equality | relation => .compare (.ofSpelling op.text) op.pos left right
  | sum | product => .binary (.ofSpelling op.text) op.pos left right

end Level

/-- Whether a token goes on an expression that ends before it, other than by an arrow. -/
def continuesOperand (t : Token) : Bool :=
  match t.kind with
  | .lpar | .dot | .lsqb | .qmark | .orOr | .andAnd | .eqOp | .relOp | .plus | .minus | .mulOp =>
      true
  | _ => false

/-- Whether a brace behind an arrow opens a record, by the tokens behind the brace.  A brace pair
that is empty or holds one name is a record only if an operand goes on behind it. -/
def opensRecord : List Token → Bool
  | t :: u :: rest =>
      match t.kind, u.kind with
      -- Both readings fit the braces; only a record can be an operand of what follows.
      | .rbrace, _ => continuesOperand u
      | .name, .rbrace => rest.head?.any continuesOperand
      -- From here on a block would be refused at the second token.
      | .name, .colon => true
      | .name, .comma => true
      | .string, .colon => true
      | _, _ => false
  | _ => false

/-- Whether a function keyword starts a declaration, by the tokens behind it. -/
def namesFunction : List Token → Bool
  | t :: _ => t.kind = .name
  | [] => false

/-- Whether another condition follows `else`, by the tokens behind it. -/
def startsIf : List Token → Bool
  | t :: _ => t.kind = .keyword .ifWord
  | [] => false

/-- Whether `return` stands alone, by the tokens behind it. -/
def endsStatement : List Token → Bool
  | t :: _ => t.kind = .semicolon || t.kind = .rbrace
  | [] => true

mutual
/-- An expression: an arrow or a conditional. -/
def expression (ts : List Token) : Reply Term ts.length :=
  match ts with
  | t :: u :: rest =>
      if t.kind = .name ∧ u.kind = .arrow then
        (arrowBody rest).map fun body =>
          .node (some t.pos) (.arrow ⟨some t.pos, [bindName t]⟩ body)
      else if t.kind = .lpar then
        -- Parameters or an operand: they part at the arrow, so the reading that gets further counts.
        match params (t :: u :: rest) with
        | .ok ps (a :: behind) short =>
            if a.kind = .arrow then
              (arrowBody behind).map fun body => .node (some t.pos) (.arrow ps body)
            else (conditional (t :: u :: rest)).orFurther (a :: behind)
        | .ok _ [] _ => (conditional (t :: u :: rest)).orFurther []
        | .fail behind => (conditional (t :: u :: rest)).orFurther behind
      else conditional (t :: u :: rest)
  | [t] => conditional [t]
  | [] => .fail []
termination_by 16 * ts.length + 10
decreasing_by all_goals ((try simp only [List.length_cons] at *); omega)

/-- What follows an arrow: a block or an expression. -/
def arrowBody (ts : List Token) : Reply Term ts.length :=
  match ts with
  | t :: rest =>
      if t.kind = .lbrace ∧ ¬ opensRecord rest then block (t :: rest)
      else expression (t :: rest)
  | [] => .fail []
termination_by 16 * ts.length + 11
decreasing_by all_goals ((try simp only [List.length_cons] at *); omega)

/-- An operand, perhaps with a question mark and two more expressions. -/
def conditional (ts : List Token) : Reply Term ts.length :=
  (chain .or ts).andThen fun condition behind _ =>
    match behind with
    | q :: rest =>
        if q.kind = .qmark then
          (expression rest).andThen fun yes behindYes _ =>
            (expect .colon behindYes).andThen fun _ other _ =>
              (expression other).map fun no =>
                .node (startOf ts) (.conditional condition yes no)
        else .done condition (q :: rest)
    | [] => .done condition []
termination_by 16 * ts.length + 9
decreasing_by all_goals ((try simp only [List.length_cons, Level.rank] at *); omega)

/-- Operands joined by the operators of a level, from left to right. -/
def chain (l : Level) (ts : List Token) : Reply Term ts.length :=
  match h : l.tighter? with
  | some tighter =>
      (chain tighter ts).andThen fun left behind _ =>
        (chainRest l (startOf ts) left behind).loosen
  | none =>
      (unary ts).andThen fun left behind _ => (chainRest l (startOf ts) left behind).loosen
termination_by 16 * ts.length + 2 + l.rank
decreasing_by
  all_goals try have := Level.rank_tighter h
  all_goals have := l.rank_pos
  all_goals omega

/-- The operators of a level and their right operands, behind a left one. -/
def chainRest (l : Level) (start : Option Position) (left : Term) (ts : List Token) :
    Reply Term (ts.length + 1) :=
  match ts with
  | op :: rest =>
      if l.accepts op.kind then
        match h : l.tighter? with
        | some tighter =>
            (chain tighter rest).andThen fun right behind _ =>
              (chainRest l start (.node start (l.combine op left right)) behind).loosen
        | none =>
            (unary rest).andThen fun right behind _ =>
              (chainRest l start (.node start (l.combine op left right)) behind).loosen
      else .done left (op :: rest)
  | [] => .done left []
termination_by 16 * ts.length
decreasing_by
  all_goals try (have tighter := Level.rank_tighter h; have bounded : l.rank ≤ 6 := by cases l <;> decide)
  all_goals simp only [List.length_cons] at *
  all_goals omega

/-- Operators before an operand. -/
def unary (ts : List Token) : Reply Term ts.length :=
  match ts with
  | t :: rest =>
      if t.kind = .bang then
        (unary rest).map fun e => .node (some t.pos) (.unary .not t.pos e)
      else if t.kind = .minus then
        (unary rest).map fun e => .node (some t.pos) (.unary .negate t.pos e)
      else
        (primary (t :: rest)).andThen fun e behind _ =>
          (postfixRest (some t.pos) e behind).loosen
  | [] => .fail []
termination_by 16 * ts.length + 2
decreasing_by all_goals ((try simp only [List.length_cons] at *); omega)

/-- Calls, members and indices behind an operand. -/
def postfixRest (start : Option Position) (e : Term) (ts : List Token) :
    Reply Term (ts.length + 1) :=
  match ts with
  | t :: rest =>
      if t.kind = .lpar then
        (expressions .rpar rest).andThen fun args behind _ =>
          (postfixRest start (.node start (.call e args)) behind).loosen
      else if t.kind = .dot then
        (expect .name rest).andThen fun name behind _ =>
          (postfixRest start (.node start (.member e name.spelled)) behind).loosen
      else if t.kind = .lsqb then
        (expression rest).andThen fun i behind _ =>
          (expect .rsqb behind).andThen fun _ more _ =>
            (postfixRest start (.node start (.index e i)) more).loosen
      else .done e (t :: rest)
  | [] => .done e []
termination_by 16 * ts.length
decreasing_by all_goals ((try simp only [List.length_cons] at *); omega)

/-- Literals, names, arrays, records, functions and expressions in parentheses. -/
def primary (ts : List Token) : Reply Term ts.length :=
  match ts with
  | t :: rest =>
      match t.kind with
      | .number => .done (.node (some t.pos) (.number t.spelled)) rest
      | .string => .done (.node (some t.pos) (.string t.spelled)) rest
      | .name => .done (.node (some t.pos) (.reference t.spelled)) rest
      | .keyword .trueWord => .done (.node (some t.pos) (.truth true)) rest
      | .keyword .falseWord => .done (.node (some t.pos) (.truth false)) rest
      | .lsqb =>
          (expressions .rsqb rest).map fun es => .node (some t.pos) (.array es)
      | .lbrace => (fields rest).map fun fs => .node (some t.pos) (.record fs)
      | .keyword .functionWord =>
          (params rest).andThen fun ps behind _ =>
            (block behind).map fun body => .node (some t.pos) (.functionExpression ps body)
      | .lpar =>
          (expression rest).andThen fun e behind _ =>
            (expect .rpar behind).map fun _ => e
      | _ => .fail (t :: rest)
  | [] => .fail []
termination_by 16 * ts.length
decreasing_by all_goals ((try simp only [List.length_cons] at *); omega)

/-- Expressions with commas between them and perhaps behind the last, up to a closing mark. -/
def expressions (close : TokenKind) (ts : List Token) : Reply (List Term) ts.length :=
  match ts with
  | [] => .fail []
  | t :: rest =>
      if t.kind = close then .done [] rest
      else
        (expression (t :: rest)).andThen fun e behind _ =>
          match behind with
          | [] => .fail []
          | u :: more =>
              if u.kind = .comma then (expressions close more).map (e :: ·)
              else if u.kind = close then .done [e] more
              else .fail (u :: more)
termination_by 16 * ts.length + 11
decreasing_by all_goals ((try simp only [List.length_cons] at *); omega)

/-- The fields of a record, up to the closing brace. -/
def fields (ts : List Token) : Reply (List Field) ts.length :=
  match ts with
  | [] => .fail []
  | t :: rest =>
      if t.kind = .rbrace then .done [] rest
      else
        (field (t :: rest)).andThen fun f behind _ =>
          match behind with
          | [] => .fail []
          | u :: more =>
              if u.kind = .comma then (fields more).map (f :: ·)
              else if u.kind = .rbrace then .done [f] more
              else .fail (u :: more)
termination_by 16 * ts.length + 1
decreasing_by all_goals ((try simp only [List.length_cons] at *); omega)

/-- One field of a record; a name alone stands for a field that holds the value of its name. -/
def field (ts : List Token) : Reply Field ts.length :=
  match ts with
  | [] => .fail []
  | [t] => if t.kind = .name then .done (shorthand t) []
      else if t.kind = .string then .fail [] else .fail [t]
  | t :: u :: rest =>
      if t.kind = .name ∨ t.kind = .string then
        if u.kind = .colon then
          (expression rest).map (.mk (some t.pos) (keyOf t))
        else if t.kind = .name then .done (shorthand t) (u :: rest)
        else .fail (u :: rest)
      else .fail (t :: u :: rest)
termination_by 16 * ts.length
decreasing_by all_goals ((try simp only [List.length_cons] at *); omega)
where
  /-- The field that a name alone stands for. -/
  shorthand (t : Token) : Field :=
    .mk (some t.pos) (shorthandKey t) (.node (some t.pos) (.reference t.spelled))

/-- Statements in braces. -/
def block (ts : List Token) : Reply Term ts.length :=
  (expect .lbrace ts).andThen fun t rest _ =>
    (statements rest).andThen fun body behind _ =>
      (expect .rbrace behind).map fun _ => .node (some t.pos) (.block body)
termination_by 16 * ts.length
decreasing_by all_goals omega

/-- Statements up to a closing brace, the end, or a token that cannot follow the last one. -/
def statements (ts : List Token) : Reply (List Term) (ts.length + 1) :=
  match ts with
  | [] => .done [] []
  | t :: rest =>
      if t.kind = .semicolon then (statements rest).loosen
      else if t.kind = .rbrace then .done [] (t :: rest)
      else if t.kind = .keyword .ifWord then
        (ifStatement (t :: rest)).andThen fun s behind _ =>
          (statements behind).map (s :: ·)
      else if t.kind = .keyword .functionWord ∧ namesFunction rest then
        (functionDeclaration (t :: rest)).andThen fun s behind _ =>
          (statements behind).map (s :: ·)
      else
        (simpleStatement (t :: rest)).andThen fun s behind _ =>
          match behind with
          | [] => .done [s] []
          | u :: more =>
              if u.kind = .semicolon then (statements more).map (s :: ·)
              else .done [s] (u :: more)
termination_by 16 * ts.length + 12
decreasing_by all_goals ((try simp only [List.length_cons] at *); omega)

/-- A condition and a block, perhaps with another block or condition to fall back on. -/
def ifStatement (ts : List Token) : Reply Term ts.length :=
  (expect (.keyword .ifWord) ts).andThen fun t afterIf _ =>
    (expect .lpar afterIf).andThen fun _ inside _ =>
      (expression inside).andThen fun condition behindCondition _ =>
        (expect .rpar behindCondition).andThen fun _ opening _ =>
          (block opening).andThen fun yes behind _ =>
            match behind with
            | e :: rest =>
                if e.kind = .keyword .elseWord then
                  if startsIf rest then
                    (ifStatement rest).map fun no =>
                      .node (some t.pos) (.ifThenElse condition yes no)
                  else
                    (block rest).map fun no =>
                      .node (some t.pos) (.ifThenElse condition yes no)
                else .done (.node (some t.pos) (.ifThen condition yes)) (e :: rest)
            | [] => .done (.node (some t.pos) (.ifThen condition yes)) []
termination_by 16 * ts.length
decreasing_by all_goals ((try simp only [List.length_cons] at *); omega)

/-- A named function. -/
def functionDeclaration (ts : List Token) : Reply Term ts.length :=
  (expect (.keyword .functionWord) ts).andThen fun t afterWord _ =>
    (expect .name afterWord).andThen fun name afterName _ =>
      (params afterName).andThen fun ps behind _ =>
        (block behind).map fun body =>
          .node (some t.pos) (.functionDeclaration name.spelled ps body)
termination_by 16 * ts.length
decreasing_by all_goals omega

/-- A declaration, `return`, `throw` or an expression. -/
def simpleStatement (ts : List Token) : Reply Term ts.length :=
  match ts with
  | [] => .fail []
  | t :: rest =>
      match t.kind with
      | .keyword .constWord | .keyword .letWord | .keyword .varWord =>
          (pattern rest).andThen fun p behind _ =>
            (expect .equal behind).andThen fun _ more _ =>
              (expression more).map fun e => .node (some t.pos) (.declaration p e)
      | .keyword .returnWord =>
          if endsStatement rest then .done (.node (some t.pos) .returnNothing) rest
          else (expression rest).map fun e => .node (some t.pos) (.returnValue e)
      | .keyword .throwWord =>
          (expression rest).map fun e => .node (some t.pos) (.throwValue e)
      | _ =>
          (expression (t :: rest)).map fun e => .node (some t.pos) (.expressionStatement e)
termination_by 16 * ts.length + 11
decreasing_by all_goals ((try simp only [List.length_cons] at *); omega)
end

/-- A whole script; if it is none, the tokens from the first one on that cannot go on a script. -/
def program (ts : List Token) : Except (List Token) Term :=
  match statements ts with
  | .ok body [] _ => .ok (.node (startOf ts) (.program body))
  | .ok _ rest _ => .error rest
  | .fail rest => .error rest

end Phrase

end VariantScript.Syntax
