import VariantScript.Proofs.Joining.Tokens
import VariantScript.Proofs.Places.Reading
import VariantScript.Proofs.Reading.Earliest

/-!
# Programs one below the other

The statements of a program are read in the same way if a semicolon and more statements follow: what
stands behind them starts with a token that ends every statement.  A program has no two neighbouring
operators of products, so it keeps its tokens as well.  Hence two texts that are programs make one
with a semicolon between them, which has the statements of the first in their places and then those of
the second.
-/

namespace VariantScript.Syntax

open Grammar

/-! ## Neighbouring operators -/

/-- Tokens without neighbouring operators of products, and with none at either end. -/
structure Settled (ts : List Token) : Prop where
  calm : Calm ts
  head : ∀ t ∈ ts.head?, t.kind ≠ .mulOp
  last : ∀ t ∈ ts.getLast?, t.kind ≠ .mulOp

namespace Settled

variable {t : Token} {kind : TokenKind} {u v : List Token}

theorem nil : Settled [] :=
  ⟨.nil, by simp, by simp⟩

theorem single (ht : t.kind ≠ .mulOp) : Settled [t] :=
  ⟨.singleton t, by simpa using ht, by simpa using ht⟩

theorem append (hu : Settled u) (hv : Settled v) : Settled (u ++ v) where
  calm := List.isChain_append.2 ⟨hu.calm, hv.calm, fun t ht _ _ h => hu.last t ht h.1⟩
  head := by
    intro t ht
    rw [List.head?_append, Option.mem_def, Option.or_eq_some_iff] at ht
    rcases ht with ht | ⟨-, ht⟩
    · exact hu.head t ht
    · exact hv.head t ht
  last := by
    intro t ht
    rw [List.getLast?_append, Option.mem_def, Option.or_eq_some_iff] at ht
    rcases ht with ht | ⟨-, ht⟩
    · exact hv.last t ht
    · exact hu.last t ht

theorem cons (ht : t.Is kind) (hv : Settled v) (hkind : kind ≠ .mulOp := by decide) :
    Settled (t :: v) :=
  (single (ht.1 ▸ hkind)).append hv

theorem between {o c : Token} {opening closing : TokenKind} (ho : o.Is opening) (hv : Settled v)
    (hc : c.Is closing) (hopening : opening ≠ .mulOp := by decide)
    (hclosing : closing ≠ .mulOp := by decide) : Settled (o :: (v ++ [c])) :=
  cons ho (hv.append (single (hc.1 ▸ hclosing))) hopening

/-- Any token can stand between tokens of which there are some on both sides. -/
theorem around (hu : Settled u) (hv : Settled v) (hune : u ≠ []) (hvne : v ≠ []) (t : Token) :
    Settled (u ++ t :: v) where
  calm := by
    refine List.isChain_append.2 ⟨hu.calm, List.isChain_cons.2 ⟨fun w hw h => ?_, hv.calm⟩, ?_⟩
    · exact hv.head w hw h.2
    · exact fun w hw _ _ h => hu.last w hw h.1
  head := by
    intro w hw
    rw [List.head?_append_of_ne_nil _ hune] at hw
    exact hu.head w hw
  last := by
    intro w hw
    rw [List.getLast?_append_of_ne_nil _ (List.cons_ne_nil t v),
      List.getLast?_cons_of_ne_nil hvne] at hw
    exact hv.last w hw

end Settled

namespace Grammar

theorem isKey_ne_mulOp {k : Token} (h : k.IsKey) : k.kind ≠ .mulOp := by
  rcases h with h | h <;> simp [h.1]

theorem isDeclarator_ne_mulOp {t : Token} (h : t.IsDeclarator) : t.kind ≠ .mulOp := by
  rcases h with h | h | h <;> simp [h.1]

theorem isPrefixOperator_ne_mulOp {op : Token} (h : op.IsPrefixOperator) : op.kind ≠ .mulOp := by
  rcases h with h | h <;> simp [h.1]

/-- No part of a script has two neighbouring operators of products. -/
theorem settled_of_produces {p : Part} {w : List Token} {ns : List Node} (h : Produces p w ns) :
    Settled w := by
  induction h with
  | listNil | statementsNil => exact .nil
  | listLast _ ih | expressionArrow _ ih | expressionConditional _ ih | bodyBlock _ ih
  | bodyExpression _ ih | conditionalOperand _ ih | levelOperand _ ih | unarySuffixed _ ih
  | suffixedPrimary _ ih | primaryArray _ ih | primaryObject _ ih | start _ ih
  | statementsLast _ ih | simpleDeclaration _ ih | simpleReturn _ ih | simpleThrow _ ih
  | expressionStatement _ ih | compoundFunction _ ih | compoundIf _ ih => exact ih
  | patternName ht | patternShorthand ht | number ht | string ht | trueWord ht | falseWord ht
  | reference ht | fieldShorthand ht | returnNothing ht => exact .cons ht .nil
  | patternArray ho _ hc ih | patternRecord ho _ hc ih | params ho _ hc ih
  | parenthesized ho _ hc ih | array ho _ hc ih | object ho _ hc ih | block ho _ hc ih =>
      exact .between ho ih hc
  | patternField hk hc _ ih | field hk hc _ ih =>
      exact (Settled.single (isKey_ne_mulOp hk)).append (.cons hc ih)
  | listMore _ h _ ihFirst ihSecond | arrowParams _ h _ ihFirst ihSecond
  | statementsSimple _ h _ ihFirst ihSecond => exact ihFirst.append (.cons h ihSecond)
  | operation left _ right ihLeft ihRight =>
      exact ihLeft.around ihRight (nonempty_of_produces left trivial)
        (nonempty_of_produces right (isFilled_operand _)) _
  | arrowName h h' _ ih => exact .cons h (.cons h' ih)
  | statementsCompound _ _ ihFirst ihSecond => exact ihFirst.append ihSecond
  | ternary _ hq _ hc _ ihCondition ihYes ihNo =>
      exact ihCondition.append (.cons hq (ihYes.append (.cons hc ihNo)))
  | unaryOperation hop _ ih => exact (Settled.single (isPrefixOperator_ne_mulOp hop)).append ih
  | call _ ho _ hc ihFirst ihSecond | index _ ho _ hc ihFirst ihSecond =>
      exact ihFirst.append (.between ho ihSecond hc)
  | member _ ho ht ih => exact ih.append (.cons ho (.cons ht .nil))
  | functionExpression ht _ _ ihFirst ihSecond => exact .cons ht (ihFirst.append ihSecond)
  | statementsSemicolon h _ ih | returnValue h _ ih | throwValue h _ ih => exact .cons h ih
  | declaration ht _ ho _ ihFirst ihSecond =>
      exact (Settled.single (isDeclarator_ne_mulOp ht)).append (ihFirst.append (.cons ho ihSecond))
  | functionDeclaration ht hn _ _ ihFirst ihSecond =>
      exact .cons ht (.cons hn (ihFirst.append ihSecond))
  | ifThen ht ho _ hc _ ihCondition ihYes =>
      exact .cons ht (.cons ho (ihCondition.append (.cons hc ihYes)))
  | ifElse ht ho _ hc _ hq _ ihCondition ihYes ihNo
  | ifElseIf ht ho _ hc _ hq _ ihCondition ihYes ihNo =>
      exact .cons ht (.cons ho (ihCondition.append (.cons hc (ihYes.append (.cons hq ihNo)))))

end Grammar

/-! ## Statements behind a semicolon -/

namespace Phrase

/-- Statements that are read in the same way if a semicolon and other tokens follow. -/
def Joins (w : List Token) : Prop :=
  ∃ body, (statements w).outcome = .ok (body, []) ∧
    ∀ s ts, s.Is .semicolon → Genuine ts →
      (statements (w ++ s :: ts)).outcome = (statements ts).outcome.map (body ++ ·)

theorem joins_nil : Joins [] := by
  refine ⟨[], by rw [outcome_statements], fun s ts hs _ => ?_⟩
  rw [List.nil_append, outcome_statements]
  simp only [hs.1, if_true]
  cases (statements ts).outcome <;> rfl

theorem joins_last {w : List Token} {x : Node} (hw : Produces (.one .simpleStatement) w [x]) :
    Joins w := by
  obtain ⟨e, -, hread⟩ := found_of_produces hw
  have halone : (simpleStatement (w ++ [])).outcome = .ok (e, []) := hread [] genuine_nil rfl
  refine ⟨[e], ?_, fun s ts hs hts => ?_⟩
  · rw [← List.append_nil w, outcome_statements_simple hw, halone]
    rfl
  · have hbefore : (simpleStatement (w ++ s :: ts)).outcome = .ok (e, s :: ts) :=
      hread (s :: ts) (genuine_cons.2 ⟨hs.2, hts⟩) (by simp [endsStatement, hs.1])
    rw [outcome_statements_simple hw, hbefore]
    simp [statementsRest, hs.1]

theorem joins_semicolon {s : Token} {v : List Token} (hs : s.Is .semicolon) (h : Joins v) :
    Joins (s :: v) := by
  obtain ⟨body, hread, hjoined⟩ := h
  refine ⟨body, ?_, fun s' ts hs' hts => ?_⟩
  · rw [outcome_statements]
    simp [hs.1, hread]
  · rw [List.cons_append, outcome_statements]
    simp [hs.1, hjoined s' ts hs' hts]

theorem map_cons_append {α : Type} (x : α) (xs : List α) (o : Outcome (List α)) :
    (o.map (xs ++ ·)).map (x :: ·) = o.map (x :: xs ++ ·) := by
  cases o <;> rfl

theorem joins_simple {s : Token} {u v : List Token} {x : Node}
    (hu : Produces (.one .simpleStatement) u [x]) (hs : s.Is .semicolon) (hv : Genuine v)
    (h : Joins v) : Joins (u ++ s :: v) := by
  obtain ⟨e, -, hread⟩ := found_of_produces hu
  obtain ⟨body, hbody, hjoined⟩ := h
  have hfirst (rest : List Token) (hrest : Genuine rest) :
      (statements (u ++ s :: rest)).outcome = (statements rest).outcome.map (e :: ·) := by
    have hbefore : (simpleStatement (u ++ s :: rest)).outcome = .ok (e, s :: rest) :=
      hread (s :: rest) (genuine_cons.2 ⟨hs.2, hrest⟩) (by simp [endsStatement, hs.1])
    rw [outcome_statements_simple hu, hbefore]
    simp [statementsRest, hs.1]
  refine ⟨e :: body, ?_, fun s' ts hs' hts => ?_⟩
  · rw [hfirst v hv, hbody]
    rfl
  · have hgenuine : Genuine (v ++ s' :: ts) := by simp [hv, hs'.2, hts]
    rw [List.append_assoc, List.cons_append, hfirst _ hgenuine, hjoined s' ts hs' hts,
      map_cons_append]

/-- Behind a condition or a function that is declared, statements go on unless `else` follows. -/
theorem outcome_statements_compound {u : List Token} {x : Node}
    (hu : Produces (.one .compoundStatement) u [x]) :
    ∃ e, ∀ rest, Genuine rest → NoElse rest →
      (statements (u ++ rest)).outcome = (statements rest).outcome.map (e :: ·) := by
  rcases found_of_produces hu with
    ⟨⟨e, -, hif⟩, t, w, rfl, ht⟩ | ⟨⟨e, -, hfunction⟩, t, k, w, rfl, ht, hk⟩
  · refine ⟨e, fun rest hrest hnoElse => ?_⟩
    have hfirst : (ifStatement (t :: (w ++ rest))).outcome = .ok (e, rest) :=
      hif rest hrest hnoElse
    rw [List.cons_append, outcome_statements]
    simp [ht, hfirst]
  · refine ⟨e, fun rest hrest _ => ?_⟩
    have hfirst : (functionDeclaration (t :: k :: (w ++ rest))).outcome = .ok (e, rest) :=
      hfunction rest hrest trivial
    rw [List.cons_append, List.cons_append, outcome_statements]
    simp [ht, hk, namesFunction, hfirst]

/-- No statement starts with `else`. -/
theorem noElse_of_statements {v rest : List Token} {ns : List Node}
    (hv : Produces .statements v ns) (hrest : NoElse rest) : NoElse (v ++ rest) := by
  cases v with
  | nil => exact hrest
  | cons c v =>
      rintro _ ⟨⟩
      exact (opensBlock_of_statements hv c v rfl).2.1

theorem joins_compound {u v : List Token} {x : Node} {ns : List Node}
    (hu : Produces (.one .compoundStatement) u [x]) (hv : Produces .statements v ns)
    (h : Joins v) : Joins (u ++ v) := by
  obtain ⟨e, hfirst⟩ := outcome_statements_compound hu
  obtain ⟨body, hbody, hjoined⟩ := h
  have hgenuine := genuine_of_produces hv
  refine ⟨e :: body, ?_, fun s ts hs hts => ?_⟩
  · have hnoElse : NoElse (v ++ []) := noElse_of_statements hv (by simp [NoElse])
    rw [List.append_nil] at hnoElse
    rw [hfirst v hgenuine hnoElse, hbody]
    rfl
  · have hnoElse : NoElse (v ++ s :: ts) :=
      noElse_of_statements hv (by rintro _ ⟨⟩; simp [hs.1])
    rw [List.append_assoc, hfirst _ (by simp [hgenuine, hs.2, hts]) hnoElse, hjoined s ts hs hts,
      map_cons_append]

/-- Whatever is written as statements is read in the same way if a semicolon follows. -/
theorem joins_of_produces {w : List Token} {ns : List Node} (h : Produces .statements w ns) :
    Joins w := by
  cases h with
  | statementsNil => exact joins_nil
  | statementsLast h => exact joins_last h
  | statementsSemicolon hs others => exact joins_semicolon hs (joins_of_produces others)
  | statementsSimple h hs others =>
      exact joins_simple h hs (genuine_of_produces others) (joins_of_produces others)
  | statementsCompound h others =>
      have hfilled := List.length_pos_iff.2 (nonempty_of_produces h trivial)
      exact joins_compound h others (joins_of_produces others)
termination_by w.length
decreasing_by
  all_goals subst_vars
  all_goals simp only [List.length_append, List.length_cons]
  all_goals omega

end Phrase

/-! ## Programs -/

namespace Program

/-- A text that is a program, by its tokens. -/
theorem tokens_of_read {source : List Char} {t : Term} (h : read source = .ok t) :
    (tokensOf source).2 = [] ∧ Phrase.program (tokensOf source).1 = .ok t := by
  unfold read at h
  dsimp only at h
  split at h
  · rename_i hprogram hleft
    cases h
    exact ⟨hleft, hprogram⟩
  all_goals cases h

/-- Two programs with a semicolon between them are one program: the statements of the first, and
behind them, up to places, those of the second. -/
theorem read_joined {cs ds : List Char} {t u : Term} (ht : read cs = .ok t)
    (hu : read ds = .ok u) :
    ∃ (p q r : Option Position) (above below below' : List Term),
      t = .node p (.program above) ∧ u = .node q (.program below) ∧
        read (cs ++ '\n' :: ';' :: '\n' :: ds) = .ok (.node r (.program (above ++ below'))) ∧
          below'.map Term.unplaced = below.map Term.unplaced ∧ (above = [] ∨ r = p) ∧
            (below = [] ∨ r.map Position.unplaced = q.map Position.unplaced) := by
  obtain ⟨hleft, hprogram⟩ := tokens_of_read ht
  obtain ⟨hleft', hprogram'⟩ := tokens_of_read hu
  obtain ⟨above, habove, rfl⟩ := Phrase.statements_of_program hprogram
  obtain ⟨below, hbelow, rfl⟩ := Phrase.statements_of_program hprogram'
  have hproduces := Phrase.produces_of_program (genuine_tokensOf cs) hprogram
  obtain ⟨ns, hstatements⟩ : ∃ ns, Produces .statements (tokensOf cs).1 ns := by
    cases hproduces with
    | start h => exact ⟨_, h⟩
  obtain ⟨s, us, hs, htokens, hus⟩ :=
    tokensOf_joined ds hleft (settled_of_produces hstatements).calm
  obtain ⟨below', hread, hsame⟩ := Phrase.statements_alike hus hbelow
  have hgenuine : Genuine us := by
    have hall := genuine_tokensOf (cs ++ '\n' :: ';' :: '\n' :: ds)
    rw [htokens] at hall
    exact (genuine_append.1 hall).2.tail
  obtain ⟨body, hbody, hjoined⟩ := Phrase.joins_of_produces hstatements
  obtain rfl : above = body := by
    rw [habove] at hbody
    simpa using hbody
  have hall := hjoined s us hs hgenuine
  rw [hread, Outcome.map_ok] at hall
  refine ⟨_, _, startOf ((tokensOf cs).1 ++ s :: us), above, below, below', rfl, rfl, ?_, hsame,
    ?_, ?_⟩
  · refine read_of_ok ?_ ?_
    · rw [htokens, Phrase.program_eq]
      dsimp only
      rw [hall]
    · rw [htokens, hleft']
  · -- A program without tokens has no statements; others start where the joined one does.
    cases hts : (tokensOf cs).1 with
    | nil =>
        rw [hts, Phrase.outcome_statements] at habove
        exact Or.inl (by simpa using habove.symm)
    | cons t ts => exact Or.inr rfl
  · cases hts : (tokensOf ds).1 with
    | nil =>
        rw [hts, Phrase.outcome_statements] at hbelow
        exact Or.inl (by simpa using hbelow.symm)
    | cons t ts =>
        refine Or.inr ?_
        cases (tokensOf cs).1 <;> rfl

end Program

end VariantScript.Syntax
