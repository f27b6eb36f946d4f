import VariantScript.Proofs.Reading.Completeness.Part
import VariantScript.Proofs.Reading.Steadiness.Step

/-!
# Choices that are open

Where the tokens do not tell yet which of two phrases they are, they can go on to either of them: a
name to an operand or an arrow, a brace to a block or a record, and the word for functions to a
declaration or an expression.
-/

namespace VariantScript.Syntax

open Grammar

namespace Phrase

open Outcome

variable {α β : Type} {r r' : List Token}

theorem completes_of_finds {read : List Token → Outcome α} {trees : α → List Node}
    {fits : List Token → Prop} {m v : List Token} {ns : List Node}
    (h : Finds read trees fits (m ++ v) ns) (hfits : fits []) (hv : Genuine v) :
    Completes read m := by
  obtain ⟨x, -, hread⟩ := h
  exact ⟨v, x, hv, by simpa using hread [] genuine_nil hfits⟩

theorem genuine_sampleBlock : Genuine sampleBlock :=
  genuine_of_produces writes_sampleBlock

/-- Tokens behind a brace that do not tell a block from a record. -/
inductive Undecided : List Token → Prop where
  | nil : Undecided []
  | closed {t : Token} (ht : t.kind = .rbrace) : Undecided [t]
  | name {t : Token} (ht : t.kind = .name) : Undecided [t]
  | string {t : Token} (ht : t.kind = .string) : Undecided [t]
  | named {t c : Token} (ht : t.kind = .name) (hc : c.kind = .rbrace) : Undecided [t, c]

/-- Whether a record opens is told by tokens before `r`, or nothing is decided there. -/
theorem opensRecord_same (m r r' : List Token) :
    opensRecord (m ++ r) = opensRecord (m ++ r') ∨ Undecided m := by
  -- Three tokens behind the brace decide in any case.
  match m with
  | [] => exact Or.inr .nil
  | [t] =>
      by_cases hclosed : t.kind = .rbrace
      · exact Or.inr (.closed hclosed)
      · by_cases hname : t.kind = .name
        · exact Or.inr (.name hname)
        · by_cases hstring : t.kind = .string
          · exact Or.inr (.string hstring)
          · have hfalse (r : List Token) : opensRecord ([t] ++ r) = false := by
              cases r with
              | nil => rfl
              | cons u r =>
                  simp only [List.cons_append, List.nil_append, opensRecord]
                  split <;> simp_all
            exact Or.inl (by rw [hfalse r, hfalse r'])
  | [t, u] =>
      by_cases hnamed : t.kind = .name ∧ u.kind = .rbrace
      · exact Or.inr (.named hnamed.1 hnamed.2)
      · left
        simp only [List.cons_append, List.nil_append, opensRecord]
        split <;> simp_all
  | t :: u :: v :: m => exact Or.inl rfl

theorem completes_block {o : Token} {m : List Token} (ho : o.Is .lbrace) (hm : Genuine m)
    (h : Undecided m) : Completes (fun ts => (block ts).outcome) (o :: m) := by
  have hclosing : Genuine [TokenKind.rbrace.sample] := by
    simp [TokenKind.rbrace.sample_is.2]
  -- One token behind the brace is an expression statement if a brace closes behind it.
  have single {t : Token} {n : Node} (ht : Writes .primary [t] n) :
      Completes (fun ts => (block ts).outcome) [o, t] :=
    completes_of_finds (v := [TokenKind.rbrace.sample]) (found_of_produces (.block ho
      (.statementsLast (.expressionStatement (writes_expression ht))) TokenKind.rbrace.sample_is))
      trivial hclosing
  cases h with
  | nil =>
      exact completes_of_finds (v := [TokenKind.rbrace.sample])
        (found_of_produces (.block ho .statementsNil TokenKind.rbrace.sample_is)) trivial hclosing
  | closed ht =>
      have hc := (genuine_cons.1 hm).1
      exact completes_of_finds (v := []) (found_of_produces (.block ho .statementsNil ⟨ht, hc⟩))
        trivial genuine_nil
  | name ht => exact single (.reference ⟨ht, (genuine_cons.1 hm).1⟩)
  | string ht => exact single (.string ⟨ht, (genuine_cons.1 hm).1⟩)
  | named ht hc =>
      obtain ⟨hgt, hgc⟩ : Token.IsGenuine _ ∧ Token.IsGenuine _ := by
        simpa using hm
      exact completes_of_finds (v := []) (found_of_produces (.block ho (.statementsLast
        (.expressionStatement (writes_expression (.reference ⟨ht, hgt⟩)))) ⟨hc, hgc⟩))
        trivial genuine_nil

theorem completes_record {o : Token} {m : List Token} (ho : o.Is .lbrace) (hm : Genuine m)
    (h : Undecided m) : Completes (fun ts => (expression ts).outcome) (o :: m) := by
  have hclosing : Genuine [TokenKind.rbrace.sample] := by
    simp [TokenKind.rbrace.sample_is.2]
  have record {w : List Token} {ns : List Node} (items : Produces (.list .field) w ns) {c : Token}
      (hc : c.Is .rbrace) : Found (.one .expression) (o :: (w ++ [c])) _ :=
    found_of_produces (writes_expression (.primaryObject (.object ho items hc)))
  cases h with
  | nil =>
      exact completes_of_finds (v := [TokenKind.rbrace.sample])
        (record .listNil TokenKind.rbrace.sample_is) stops_nil hclosing
  | closed ht =>
      exact completes_of_finds (v := []) (record .listNil ⟨ht, (genuine_cons.1 hm).1⟩) stops_nil
        genuine_nil
  | name ht =>
      exact completes_of_finds (v := [TokenKind.rbrace.sample])
        (record (.listLast (.fieldShorthand ⟨ht, (genuine_cons.1 hm).1⟩))
          TokenKind.rbrace.sample_is) stops_nil hclosing
  -- A string is a key only, so a colon and a value have to follow.
  | string ht =>
      have hfield := Produces.field (Or.inr ⟨ht, (genuine_cons.1 hm).1⟩) TokenKind.colon.sample_is
        writes_sampleExpression
      refine completes_of_finds (v := [TokenKind.colon.sample, sampleName, TokenKind.rbrace.sample])
        (record (.listLast hfield) TokenKind.rbrace.sample_is) stops_nil ?_
      simp [TokenKind.colon.sample_is.2, sampleName, TokenKind.name.sample_is.2,
        TokenKind.rbrace.sample_is.2]
  | named ht hc =>
      obtain ⟨hgt, hgc⟩ : Token.IsGenuine _ ∧ Token.IsGenuine _ := by
        simpa using hm
      exact completes_of_finds (v := []) (record (.listLast (.fieldShorthand ⟨ht, hgt⟩)) ⟨hc, hgc⟩)
        stops_nil genuine_nil

theorem completes_name {t : Token} (ht : t.Is .name) :
    Completes (fun ts => (conditional ts).outcome) [t] := by
  have hoperand : Writes .conditional [t] (referenceTree t) :=
    .conditionalOperand (writes_level (.unarySuffixed (.suffixedPrimary (.reference ht))))
  exact completes_of_finds (v := []) (found_of_produces hoperand) stops_nil genuine_nil

theorem completes_arrow (t : Token) (f : Term → Term) :
    Completes (fun ts => (arrowBody (ts.drop 2)).outcome.map f) [t] := by
  obtain ⟨e, -, hread⟩ := found_of_produces (.bodyBlock writes_sampleBlock)
  have hbody : (arrowBody (sampleBlock ++ [])).outcome = .ok (e, []) :=
    hread [] genuine_nil stops_nil
  rw [List.append_nil] at hbody
  refine ⟨TokenKind.arrow.sample :: sampleBlock, f e,
    genuine_cons.2 ⟨TokenKind.arrow.sample_is.2, genuine_sampleBlock⟩, ?_⟩
  show (arrowBody sampleBlock).outcome.map f = _
  rw [hbody]
  rfl

/-- The word for functions goes on as a declaration. -/
theorem completes_declared {t : Token} (ht : t.Is (.keyword .functionWord)) :
    Completes (fun ts => (functionDeclaration ts).outcome.andThen fun s behind =>
      (statements behind).outcome.map (s :: ·)) [t] := by
  have hproduces :
      Writes .functionDeclaration (t :: sampleName :: (sampleParams ++ sampleBlock)) _ :=
    .functionDeclaration ht TokenKind.name.sample_is writes_sampleParams writes_sampleBlock
  obtain ⟨e, -, hread⟩ := found_of_produces hproduces
  have hdeclaration : (functionDeclaration (t :: sampleName :: (sampleParams ++ sampleBlock) ++
      [])).outcome = .ok (e, []) := hread [] genuine_nil trivial
  rw [List.append_nil] at hdeclaration
  refine ⟨sampleName :: (sampleParams ++ sampleBlock), [e],
    (genuine_cons.1 (genuine_of_produces hproduces)).2, ?_⟩
  rw [List.singleton_append]
  dsimp only
  rw [hdeclaration, andThen_ok, outcome_statements]
  rfl

/-- The word for functions goes on as an expression. -/
theorem completes_called {t : Token} (ht : t.Is (.keyword .functionWord)) :
    Completes (fun ts => (simpleStatement ts).outcome.andThen statementsRest) [t] := by
  have hproduces : Writes .simpleStatement (t :: (sampleParams ++ sampleBlock)) _ :=
    .expressionStatement (writes_expression
      (.functionExpression ht writes_sampleParams writes_sampleBlock))
  obtain ⟨e, -, hread⟩ := found_of_produces hproduces
  have hstatement : (simpleStatement (t :: (sampleParams ++ sampleBlock) ++ [])).outcome =
      .ok (e, []) := hread [] genuine_nil rfl
  rw [List.append_nil] at hstatement
  refine ⟨sampleParams ++ sampleBlock, [e],
    (genuine_cons.1 (genuine_of_produces hproduces)).2, ?_⟩
  rw [List.singleton_append]
  dsimp only
  rw [hstatement, andThen_ok]
  rfl

theorem steady_statementsRest (s : Term) {behind : List Token}
    (hstatements : ∀ more, more.length < behind.length →
      SteadyAt r r' (fun ts => (statements ts).outcome) more) :
    SteadyAt r r' (statementsRest s) behind := by
  cases behind with
  | nil => exact steadyAt_nil rfl
  | cons u more =>
      by_cases hsemicolon : u.kind = .semicolon
      · exact ((hstatements more (by simp)).map (s :: ·)).cons fun more => by
          simp only [statementsRest, if_pos hsemicolon]
      · exact (steadyAt_ok [s] (u :: more)).congr fun more => by
          simp only [statementsRest, if_neg hsemicolon]

end Phrase

end VariantScript.Syntax
