import VariantScript.Proofs.Grammar.Brackets
import VariantScript.Syntax.Phrase

/-!
# Heads

What the first tokens of a part tell about it.  An operand starts with an operator before it or
with a primary, and what stands behind that primary goes on an operand.  So the second token tells
a name that is an operand from one that is a key, and the tokens behind a brace tell most records
from blocks.
-/

namespace VariantScript.Syntax

/-- Whether a kind of token starts an expression. -/
def TokenKind.startsExpression : TokenKind → Bool
  | .number | .string | .name | .keyword .trueWord | .keyword .falseWord | .lsqb | .lbrace | .lpar
  | .keyword .functionWord | .bang | .minus => true
  | _ => false

namespace Grammar

open Phrase (Level continuesOperand opensRecord namesFunction)

/-! ## Parts are not empty -/

/-- Whether a part is never written as no tokens. -/
def Part.IsFilled : Part → Prop
  | .one .start | .list _ | .statements => False
  | _ => True

theorem isFilled_operand (l : Level) : (Part.one (Rule.operand l)).IsFilled := by
  cases l <;> trivial

theorem nonempty_of_produces {p : Part} {w : List Token} {ns : List Node} (h : Produces p w ns)
    (hp : p.IsFilled) : w ≠ [] := by
  induction h with
  | listNil | listLast | listMore | start | statementsNil | statementsLast | statementsSemicolon
  | statementsSimple | statementsCompound => exact hp.elim
  | expressionArrow _ ih | expressionConditional _ ih | bodyBlock _ ih | bodyExpression _ ih
  | conditionalOperand _ ih | unarySuffixed _ ih | suffixedPrimary _ ih | primaryArray _ ih
  | primaryObject _ ih | simpleDeclaration _ ih | simpleReturn _ ih | simpleThrow _ ih
  | expressionStatement _ ih | compoundFunction _ ih | compoundIf _ ih => exact ih trivial
  | levelOperand _ ih => exact ih (isFilled_operand _)
  | _ => simp

/-! ## Parts of programs -/

/-- Whether a part stands within programs. -/
def Part.IsInner : Part → Prop
  | .one .start | .list .start => False
  | _ => True

theorem isInner_item {r : Rule} (h : (Part.list r).IsInner) : (Part.one r).IsInner := by
  cases r <;> exact h

theorem isInner_operand (l : Level) : (Part.one (Rule.operand l)).IsInner := by
  cases l <;> trivial

/-! ## First tokens -/

/-- The first token of a part does not close brackets. -/
theorem Balanced.head {t : Token} {w : List Token} (h : Balanced (t :: w)) :
    t.kind.closes = false := by
  cases hcloses : t.kind.closes with
  | false => rfl
  | true =>
      have hopens : t.kind.opens = false := by
        revert hcloses
        cases t.kind <;> simp [TokenKind.opens, TokenKind.closes]
      have hdepth := h 0 []
      simp [depthAfter, hopens, hcloses] at hdepth

/-- A part that is not empty starts with a token that closes no brackets. -/
theorem head_of_produces {p : Part} {w : List Token} {ns : List Node} (h : Produces p w ns)
    (hp : p.IsFilled) : ∃ t v, w = t :: v ∧ t.kind.closes = false := by
  cases w with
  | nil => exact absurd rfl (nonempty_of_produces h hp)
  | cons t v => exact ⟨t, v, rfl, (balanced_of_produces h).head⟩

/-! ## Operands -/

/-- Whether a part is an operand, or a conditional that starts with one. -/
def Part.IsOperand : Part → Prop
  | .one .conditional | .one (.level _) | .one .unary | .one .suffixed | .one .primary => True
  | _ => False

theorem isOperand_operand (l : Level) : (Part.one (Rule.operand l)).IsOperand := by
  cases l <;> trivial

/-- Tokens that start with a primary whose tree is `ns` if it is all of them, and that an operand
goes on with behind it. -/
def StartsPrimary (w : List Token) (ns : List Node) : Prop :=
  ∃ u more m, w = u ++ more ∧ Produces (.one .primary) u [m] ∧ (more = [] → ns = [m]) ∧
    ∀ t ∈ more.head?, continuesOperand t = true

/-- Tokens that start with an operator before an operand. -/
def StartsPrefixed (w : List Token) : Prop :=
  ∃ op v, w = op :: v ∧ op.IsPrefixOperator

theorem StartsPrimary.append {t : Token} {u v : List Token} {ms : List Node} (ns : List Node)
    (h : StartsPrimary u ms) (ht : continuesOperand t = true) : StartsPrimary (u ++ t :: v) ns := by
  obtain ⟨u, more, m, rfl, hm, -, hmore⟩ := h
  refine ⟨u, more ++ t :: v, m, by simp, hm, by simp, ?_⟩
  cases more with
  | nil => simpa using ht
  | cons b more => simpa using hmore

theorem StartsPrefixed.append {u v : List Token} (h : StartsPrefixed u) :
    StartsPrefixed (u ++ v) := by
  obtain ⟨op, u, rfl, hop⟩ := h
  exact ⟨op, u ++ v, rfl, hop⟩

theorem continuesOperand_of_isOperator {op : Token} {l : Level} (h : op.IsOperator l) :
    continuesOperand op = true := by
  have hk := h.1
  unfold continuesOperand
  cases l <;> cases hkind : op.kind <;> simp_all [Level.accepts]

theorem continuesOperand_of_is {t : Token} {kind : TokenKind} (h : t.Is kind)
    (hkind : kind ∈ [TokenKind.lpar, .dot, .lsqb, .qmark]) : continuesOperand t = true := by
  unfold continuesOperand
  simp only [List.mem_cons, List.not_mem_nil, or_false] at hkind
  rcases hkind with rfl | rfl | rfl | rfl <;> simp [h.1]

/-- An operand starts with an operator before it or with a primary. -/
theorem operand_of_produces {p : Part} {w : List Token} {ns : List Node} (h : Produces p w ns)
    (hp : p.IsOperand) : StartsPrefixed w ∨ StartsPrimary w ns := by
  -- On its left side an operand is another operand until it is a primary; what was added on the way
  -- stands behind that primary.
  induction h with
  | conditionalOperand _ ih | unarySuffixed _ ih | suffixedPrimary _ ih => exact ih trivial
  | levelOperand _ ih => exact ih (isOperand_operand _)
  | ternary _ hq _ _ _ ih =>
      exact (ih trivial).imp (·.append)
        (·.append _ (continuesOperand_of_is hq (by simp)))
  | operation _ hop _ ih =>
      exact (ih trivial).imp (·.append) (·.append _ (continuesOperand_of_isOperator hop))
  | unaryOperation hop => exact Or.inl ⟨_, _, rfl, hop⟩
  | call _ ho _ _ ih | member _ ho _ ih | index _ ho _ _ ih =>
      exact (ih trivial).imp (·.append)
        (·.append _ (continuesOperand_of_is ho (by simp)))
  | number ht => exact Or.inr ⟨_, [], _, by simp, .number ht, by simp, by simp⟩
  | string ht => exact Or.inr ⟨_, [], _, by simp, .string ht, by simp, by simp⟩
  | trueWord ht => exact Or.inr ⟨_, [], _, by simp, .trueWord ht, by simp, by simp⟩
  | falseWord ht => exact Or.inr ⟨_, [], _, by simp, .falseWord ht, by simp, by simp⟩
  | reference ht => exact Or.inr ⟨_, [], _, by simp, .reference ht, by simp, by simp⟩
  | primaryArray h => exact Or.inr ⟨_, [], _, by simp, .primaryArray h, by simp, by simp⟩
  | primaryObject h => exact Or.inr ⟨_, [], _, by simp, .primaryObject h, by simp, by simp⟩
  | functionExpression ht ps body =>
      exact Or.inr ⟨_, [], _, by simp, .functionExpression ht ps body, by simp, by simp⟩
  | parenthesized ho h hc =>
      exact Or.inr ⟨_, [], _, by simp, .parenthesized ho h hc, by simp, by simp⟩
  | _ => exact hp.elim

/-- How a primary starts, and what the first token tells about it. -/
inductive Opens : List Token → Prop where
  | literal {t : Token} (ht : t.kind ∈ [TokenKind.number, .string, .name, .keyword .trueWord,
      .keyword .falseWord]) : Opens [t]
  | array {t : Token} {v : List Token} (ht : t.kind = .lsqb) : Opens (t :: v)
  | object {t : Token} {v : List Token} (ht : t.kind = .lbrace) : Opens (t :: v)
  | parenthesis {t : Token} {v : List Token} (ht : t.kind = .lpar) : Opens (t :: v)
  | function {t o : Token} {v : List Token} (ht : t.kind = .keyword .functionWord)
      (ho : o.kind = .lpar) : Opens (t :: o :: v)

theorem opens_of_primary {w : List Token} {ns : List Node} (h : Produces (.one .primary) w ns) :
    Opens w := by
  cases h with
  | number ht => exact .literal (by simp [ht.1])
  | string ht => exact .literal (by simp [ht.1])
  | trueWord ht => exact .literal (by simp [ht.1])
  | falseWord ht => exact .literal (by simp [ht.1])
  | reference ht => exact .literal (by simp [ht.1])
  | primaryArray h =>
      cases h with
      | array ho => exact .array ho.1
  | primaryObject h =>
      cases h with
      | object ho => exact .object ho.1
  | functionExpression ht ps =>
      cases ps with
      | params ho => exact .function ht.1 ho.1
  | parenthesized ho => exact .parenthesis ho.1

/-- Tokens that start like an expression: behind a name or string stands what `behind` holds of, and
behind the word for functions a parenthesis. -/
def Leads (behind : Token → Prop) (w : List Token) : Prop :=
  ∃ t v, w = t :: v ∧ t.kind.startsExpression = true ∧
    (t.kind = .name ∨ t.kind = .string → ∀ u ∈ v.head?, behind u) ∧
    (t.kind = .keyword .functionWord → ∃ u ∈ v.head?, u.kind = .lpar)

theorem Leads.mono {P Q : Token → Prop} {w : List Token} (h : Leads P w)
    (hPQ : ∀ t, P t → Q t) : Leads Q w := by
  obtain ⟨t, v, hw, ht, hbehind, hfunction⟩ := h
  exact ⟨t, v, hw, ht, fun hk u hu => hPQ u (hbehind hk u hu), hfunction⟩

/-- Behind a name or string that starts an operand stands what goes on an operand. -/
theorem leads_of_operand {p : Part} {w : List Token} {ns : List Node} (h : Produces p w ns)
    (hp : p.IsOperand) : Leads (continuesOperand · = true) w := by
  rcases operand_of_produces h hp with ⟨op, v, rfl, hop⟩ | ⟨u, more, m, rfl, hm, -, hmore⟩
  · refine ⟨op, v, rfl, ?_⟩
    rcases hop with hop | hop <;> simp [hop.1, TokenKind.startsExpression]
  · cases opens_of_primary hm with
    | literal ht =>
        simp only [List.mem_cons, List.not_mem_nil, or_false] at ht
        refine ⟨_, more, rfl, ?_, fun _ => hmore, ?_⟩
        · rcases ht with ht | ht | ht | ht | ht <;> rw [ht] <;> rfl
        · rcases ht with ht | ht | ht | ht | ht <;> simp [ht]
    | array ht => exact ⟨_, _, rfl, by rw [ht]; rfl, by simp [ht], by simp [ht]⟩
    | object ht => exact ⟨_, _, rfl, by rw [ht]; rfl, by simp [ht], by simp [ht]⟩
    | parenthesis ht => exact ⟨_, _, rfl, by rw [ht]; rfl, by simp [ht], by simp [ht]⟩
    | function ht ho => exact ⟨_, _, rfl, by rw [ht]; rfl, by simp [ht], fun _ => ⟨_, rfl, ho⟩⟩

/-! ## Expressions and statements -/

/-- Whether a token goes on an expression that ends before it. -/
def Continues (t : Token) : Prop :=
  continuesOperand t = true ∨ t.kind = .arrow

theorem leads_of_expression {w : List Token} {ns : List Node}
    (h : Produces (.one .expression) w ns) : Leads Continues w := by
  -- Behind the name of a lone parameter stands an arrow, which goes on no operand.
  cases h with
  | expressionConditional h => exact (leads_of_operand h trivial).mono fun _ ht => Or.inl ht
  | expressionArrow h =>
      cases h with
      | arrowName ht ha =>
          exact ⟨_, _, rfl, by rw [ht.1]; rfl, by simp [Continues, ha.1], by simp [ht.1]⟩
      | arrowParams ps =>
          cases ps with
          | params ho =>
              exact ⟨_, _, rfl, by rw [ho.1]; rfl, by simp [ho.1], by simp [ho.1]⟩

/-- The words that start a statement which is no expression. -/
def startsWords : List Keyword :=
  [.constWord, .letWord, .varWord, .returnWord, .throwWord]

theorem lead_of_simpleStatement {w : List Token} {ns : List Node}
    (h : Produces (.one .simpleStatement) w ns) :
    (∃ word ∈ startsWords, ∃ t v, w = t :: v ∧ t.kind = .keyword word) ∨ Leads Continues w := by
  cases h with
  | simpleDeclaration h =>
      cases h with
      | declaration ht =>
          rcases ht with ht | ht | ht
          · exact Or.inl ⟨.constWord, by decide, _, _, rfl, ht.1⟩
          · exact Or.inl ⟨.letWord, by decide, _, _, rfl, ht.1⟩
          · exact Or.inl ⟨.varWord, by decide, _, _, rfl, ht.1⟩
  | simpleReturn h =>
      cases h with
      | returnNothing ht => exact Or.inl ⟨.returnWord, by decide, _, _, rfl, ht.1⟩
      | returnValue ht => exact Or.inl ⟨.returnWord, by decide, _, _, rfl, ht.1⟩
  | simpleThrow h =>
      cases h with
      | throwValue ht => exact Or.inl ⟨.throwWord, by decide, _, _, rfl, ht.1⟩
  | expressionStatement h => exact Or.inr (leads_of_expression h)

/-- Tokens that are no start of a record behind its brace. -/
def OpensBlock (w : List Token) : Prop :=
  ∀ t v, w = t :: v → t.kind ≠ .rbrace ∧ t.kind ≠ .keyword .elseWord ∧
    (t.kind = .name ∨ t.kind = .string →
      ∀ u ∈ v.head?, u.kind ≠ .rbrace ∧ u.kind ≠ .colon ∧ u.kind ≠ .comma)

theorem opensBlock_of_simpleStatement {w v : List Token} {ns : List Node}
    (h : Produces (.one .simpleStatement) w ns) (hv : ∀ u ∈ v.head?, u.kind = .semicolon) :
    OpensBlock (w ++ v) := by
  intro t v' hw
  rcases lead_of_simpleStatement h with ⟨word, hword, t', w', rfl, ht⟩ | ⟨t', w', rfl, ht, hb, -⟩
  · obtain ⟨rfl, rfl⟩ := List.cons.inj hw
    rw [ht]
    refine ⟨by simp, ?_, by simp⟩
    rintro ⟨⟩
    exact absurd hword (by decide)
  -- A name or string that starts an expression has behind it what goes on one, or nothing at all.
  · obtain ⟨rfl, rfl⟩ := List.cons.inj hw
    refine ⟨fun hk => by simp [hk, TokenKind.startsExpression] at ht,
      fun hk => by simp [hk, TokenKind.startsExpression] at ht, fun hk u hu => ?_⟩
    cases w' with
    | nil => simp [hv u hu]
    | cons u' w' =>
        obtain rfl : u' = u := by simpa using hu
        rcases hb hk u' rfl with hu | hu
        · unfold continuesOperand at hu
          split at hu <;> simp_all
        · simp [hu]

theorem opensBlock_of_statements {w : List Token} {ns : List Node}
    (h : Produces .statements w ns) : OpensBlock w := by
  cases h with
  | statementsNil => simp [OpensBlock]
  | statementsLast h => simpa using opensBlock_of_simpleStatement (v := []) h (by simp)
  | statementsSemicolon hs =>
      intro t v hw
      obtain ⟨rfl, rfl⟩ := List.cons.inj hw
      simp [hs.1]
  | statementsSimple h hs => exact opensBlock_of_simpleStatement h (by simp [hs.1])
  | statementsCompound h =>
      intro t v hw
      cases h with
      | compoundFunction h =>
          cases h with
          | functionDeclaration ht =>
              obtain ⟨rfl, -⟩ := List.cons.inj hw
              simp [ht.1]
      | compoundIf h =>
          cases h with
          | ifThen ht | ifElse ht | ifElseIf ht =>
              obtain ⟨rfl, -⟩ := List.cons.inj hw
              simp [ht.1]

/-! ## Braces behind an arrow -/

/-- Behind the brace of a block that nothing goes on behind, no record opens. -/
theorem opensRecord_block {w rest : List Token} {ns : List Node} {c : Token}
    (h : Produces .statements w ns) (hc : c.kind = .rbrace)
    (hrest : ∀ t ∈ rest.head?, continuesOperand t = false) :
    opensRecord (w ++ c :: rest) = false := by
  have hblock := opensBlock_of_statements h
  -- Two tokens behind the brace decide, so a block is looked at by how many tokens it holds.
  match w with
  | [] =>
      cases rest with
      | nil => rfl
      | cons u rest => simpa [opensRecord, hc] using hrest u
  | [t] =>
      obtain ⟨hbrace, -, -⟩ := hblock t [] rfl
      simp only [List.cons_append, List.nil_append, opensRecord, hc]
      cases rest with
      | nil => split <;> simp_all
      | cons u rest => split <;> simp_all
  | t :: u :: v =>
      obtain ⟨hbrace, -, hsecond⟩ := hblock t (u :: v) rfl
      simp only [List.head?_cons, Option.mem_def, Option.some.injEq, forall_eq'] at hsecond
      simp only [List.cons_append, opensRecord]
      split <;> simp_all

/-- A record that a block could be too. -/
def IsAmbiguous (w : List Token) : Prop :=
  w.map (·.kind) = [.lbrace, .rbrace] ∨ w.map (·.kind) = [.lbrace, .name, .rbrace]

/-- Behind the brace of a record that is no block, a record opens. -/
theorem opensRecord_object {o : Token} {v : List Token} {ns : List Node}
    (h : Produces (.one .object) (o :: v) ns) :
    IsAmbiguous (o :: v) ∨ ∀ rest, opensRecord (v ++ rest) = true := by
  cases h with
  | object ho items hc =>
      -- Only the empty record and that of one name could be statements.
      cases items with
      | listNil => exact Or.inl (Or.inl (by simp [ho.1, hc.1]))
      | listLast item =>
          cases item with
          | field hk hcolon =>
              refine Or.inr fun rest => ?_
              rcases hk with hk | hk <;> simp [opensRecord, hk.1, hcolon.1]
          | fieldShorthand ht => exact Or.inl (Or.inr (by simp [ho.1, ht.1, hc.1]))
      | listMore item hcomma =>
          refine Or.inr fun rest => ?_
          cases item with
          | field hk hcolon => rcases hk with hk | hk <;> simp [opensRecord, hk.1, hcolon.1]
          | fieldShorthand ht => simp [opensRecord, ht.1, hcomma.1]

/-- A record that an operand goes on behind opens a record in any case. -/
theorem opensRecord_continued {o t : Token} {v rest : List Token} {ns : List Node}
    (h : Produces (.one .object) (o :: v) ns) (ht : continuesOperand t = true) :
    opensRecord (v ++ t :: rest) = true := by
  rcases opensRecord_object h with hambiguous | hopens
  · rcases hambiguous with hkinds | hkinds
    · obtain ⟨-, c, v, rfl, hc, rfl⟩ :
          o.kind = .lbrace ∧ ∃ c u, v = c :: u ∧ c.kind = .rbrace ∧ u = [] := by
        simpa [List.map_eq_cons_iff] using hkinds
      simp [opensRecord, hc, ht]
    · obtain ⟨-, n, v, rfl, hn, c, u, rfl, hc, rfl⟩ : o.kind = .lbrace ∧ ∃ n u, v = n :: u ∧
          n.kind = .name ∧ ∃ c r, u = c :: r ∧ c.kind = .rbrace ∧ r = [] := by
        simpa [List.map_eq_cons_iff] using hkinds
      simp [opensRecord, hn, hc, ht]
  · exact hopens (t :: rest)

end Grammar

end VariantScript.Syntax
