import VariantScript.Proofs.Grammar.Production

/-!
# Brackets

Every part of a script closes the brackets that it opens, and none that it does not open.  So the
parenthesis that closes an opening one is the same however the tokens between them are read.
-/

namespace VariantScript.Syntax

/-- Whether a kind of token opens brackets. -/
def TokenKind.opens : TokenKind → Bool
  | .lpar | .lsqb | .lbrace => true
  | _ => false

/-- Whether a kind of token closes brackets. -/
def TokenKind.closes : TokenKind → Bool
  | .rpar | .rsqb | .rbrace => true
  | _ => false

namespace Grammar

open Phrase (Level)

/-- How many brackets are open behind tokens if so many were open before them; none if a bracket is
closed that was not open. -/
def depthAfter (d : Nat) : List Token → Option Nat
  | [] => some d
  | t :: ts =>
      if t.kind.opens then depthAfter (d + 1) ts
      else if t.kind.closes then
        match d with
        | 0 => none
        | d + 1 => depthAfter d ts
      else depthAfter d ts

/-- Tokens that close what they open, and nothing else. -/
def Balanced (w : List Token) : Prop :=
  ∀ d rest, depthAfter d (w ++ rest) = depthAfter d rest

theorem balanced_nil : Balanced [] := fun _ _ => rfl

theorem Balanced.append {u v : List Token} (hu : Balanced u) (hv : Balanced v) :
    Balanced (u ++ v) := by
  intro d rest
  rw [List.append_assoc, hu, hv]

theorem Balanced.cons {t : Token} {w : List Token} (ho : t.kind.opens = false)
    (hc : t.kind.closes = false) (hw : Balanced w) : Balanced (t :: w) := by
  intro d rest
  simp [depthAfter, ho, hc, hw d rest]

theorem Balanced.between {o c : Token} {w : List Token} (ho : o.kind.opens = true)
    (hc : c.kind.closes = true) (hw : Balanced w) : Balanced (o :: (w ++ [c])) := by
  intro d rest
  have hclosed : c.kind.opens = false := by
    revert hc
    cases c.kind <;> simp [TokenKind.opens, TokenKind.closes]
  have inside := hw (d + 1) (c :: rest)
  simp [depthAfter, ho, hclosed, hc] at inside ⊢
  exact inside

/-- Balanced tokens before closing marks are the same if they start the same tokens. -/
theorem Balanced.eq_of_append_eq {u v : List Token} {c c' : Token} {r r' : List Token}
    (hu : Balanced u) (hv : Balanced v) (hc : c.kind.closes = true) (hc' : c'.kind.closes = true)
    (h : u ++ c :: r = v ++ c' :: r') : u = v ∧ c = c' ∧ r = r' := by
  -- If one were longer, it would close the other's closing mark.
  have stops {x y z : List Token} {e : Token} (hx : Balanced x) (hy : Balanced y)
      (he : e.kind.closes = true) (hyx : y = x ++ e :: z) : False := by
    have hopen : e.kind.opens = false := by
      revert he
      cases e.kind <;> simp [TokenKind.opens, TokenKind.closes]
    have hend := hy 0 []
    rw [hyx, List.append_assoc, hx] at hend
    simp [depthAfter, hopen, he] at hend
  rcases List.append_eq_append_iff.1 h with ⟨z, hvz, hrz⟩ | ⟨z, huz, hrz⟩
  · cases z with
    | nil =>
        simp only [List.nil_append, List.cons.injEq] at hrz
        exact ⟨by simpa using hvz.symm, hrz.1, hrz.2⟩
    | cons e z =>
        obtain ⟨rfl, -⟩ := List.cons.inj hrz
        exact (stops hu hv hc hvz).elim
  · cases z with
    | nil =>
        simp only [List.nil_append, List.cons.injEq] at hrz
        exact ⟨by simpa using huz, hrz.1.symm, hrz.2.symm⟩
    | cons e z =>
        obtain ⟨rfl, -⟩ := List.cons.inj hrz
        exact (stops hv hu hc' huz).elim

/-- No operator of a level is a bracket. -/
theorem isOperator_bracket {op : Token} {l : Level} (h : op.IsOperator l) :
    op.kind.opens = false ∧ op.kind.closes = false := by
  have hk := h.1
  revert hk
  cases l <;> cases op.kind <;> simp [Level.accepts, TokenKind.opens, TokenKind.closes]

theorem isKey_bracket {k : Token} (h : k.IsKey) :
    k.kind.opens = false ∧ k.kind.closes = false := by
  rcases h with h | h <;> simp [h.1, TokenKind.opens, TokenKind.closes]

theorem isDeclarator_bracket {t : Token} (h : t.IsDeclarator) :
    t.kind.opens = false ∧ t.kind.closes = false := by
  rcases h with h | h | h <;> simp [h.1, TokenKind.opens, TokenKind.closes]

theorem isPrefixOperator_bracket {op : Token} (h : op.IsPrefixOperator) :
    op.kind.opens = false ∧ op.kind.closes = false := by
  rcases h with h | h <;> simp [h.1, TokenKind.opens, TokenKind.closes]

theorem balanced_cons {t : Token} {kind : TokenKind} {w : List Token} (h : t.Is kind)
    (hw : Balanced w) (ho : kind.opens = false := by rfl) (hc : kind.closes = false := by rfl) :
    Balanced (t :: w) :=
  hw.cons (h.1 ▸ ho) (h.1 ▸ hc)

/-- Every part of a script is balanced. -/
theorem balanced_of_produces {p : Part} {w : List Token} {ns : List Node} (h : Produces p w ns) :
    Balanced w := by
  -- Wherever a production has a bracket it has the other one too, with a part between them.
  induction h with
  | listNil | statementsNil => exact balanced_nil
  | listLast _ ih | expressionArrow _ ih | expressionConditional _ ih | bodyBlock _ ih
  | bodyExpression _ ih | conditionalOperand _ ih | levelOperand _ ih | unarySuffixed _ ih
  | suffixedPrimary _ ih | primaryArray _ ih | primaryObject _ ih | start _ ih
  | statementsLast _ ih | simpleDeclaration _ ih | simpleReturn _ ih | simpleThrow _ ih
  | expressionStatement _ ih | compoundFunction _ ih | compoundIf _ ih => exact ih
  | listMore _ hc _ ihItem ihItems => exact ihItem.append (balanced_cons hc ihItems)
  | patternName ht | patternShorthand ht | number ht | string ht | trueWord ht | falseWord ht
  | reference ht | fieldShorthand ht | returnNothing ht => exact balanced_cons ht balanced_nil
  | patternArray ho _ hc ih | patternRecord ho _ hc ih | params ho _ hc ih
  | parenthesized ho _ hc ih | array ho _ hc ih | object ho _ hc ih | block ho _ hc ih =>
      exact ih.between (by rw [ho.1]; rfl) (by rw [hc.1]; rfl)
  | patternField hk hc _ ih | field hk hc _ ih =>
      exact (balanced_cons hc ih).cons (isKey_bracket hk).1 (isKey_bracket hk).2
  | arrowName ht ha _ ih => exact balanced_cons ht (balanced_cons ha ih)
  | arrowParams _ ha _ ihParams ihBody => exact ihParams.append (balanced_cons ha ihBody)
  | ternary _ hq _ hc _ ihCondition ihYes ihNo =>
      exact ihCondition.append (balanced_cons hq (ihYes.append (balanced_cons hc ihNo)))
  | operation _ hop _ ihLeft ihRight =>
      exact ihLeft.append (ihRight.cons (isOperator_bracket hop).1 (isOperator_bracket hop).2)
  | unaryOperation hop _ ih =>
      exact ih.cons (isPrefixOperator_bracket hop).1 (isPrefixOperator_bracket hop).2
  | call _ ho _ hc ihCallee ihArgs =>
      exact ihCallee.append (ihArgs.between (by rw [ho.1]; rfl) (by rw [hc.1]; rfl))
  | member _ ho ht ih => exact ih.append (balanced_cons ho (balanced_cons ht balanced_nil))
  | index _ ho _ hc ihReceiver ihPosition =>
      exact ihReceiver.append (ihPosition.between (by rw [ho.1]; rfl) (by rw [hc.1]; rfl))
  | functionExpression ht _ _ ihParams ihBody => exact balanced_cons ht (ihParams.append ihBody)
  | statementsSemicolon hs _ ih => exact balanced_cons hs ih
  | statementsSimple _ hs _ ihFirst ihOthers => exact ihFirst.append (balanced_cons hs ihOthers)
  | statementsCompound _ _ ihFirst ihOthers => exact ihFirst.append ihOthers
  | declaration ht _ ho _ ihPattern ihValue =>
      exact (ihPattern.append (balanced_cons ho ihValue)).cons (isDeclarator_bracket ht).1
        (isDeclarator_bracket ht).2
  | returnValue ht _ ih | throwValue ht _ ih => exact balanced_cons ht ih
  | functionDeclaration ht hn _ _ ihParams ihBody =>
      exact balanced_cons ht (balanced_cons hn (ihParams.append ihBody))
  | ifThen ht ho _ hc _ ihCondition ihYes =>
      apply balanced_cons ht
      have condition := ihCondition.between (o := _) (by rw [ho.1]; rfl) (by rw [hc.1]; rfl)
      simpa using condition.append ihYes
  | ifElse ht ho _ hc _ hq _ ihCondition ihYes ihNo
  | ifElseIf ht ho _ hc _ hq _ ihCondition ihYes ihNo =>
      apply balanced_cons ht
      have condition := ihCondition.between (o := _) (by rw [ho.1]; rfl) (by rw [hc.1]; rfl)
      simpa using condition.append (ihYes.append (balanced_cons hq ihNo))

end Grammar

end VariantScript.Syntax
