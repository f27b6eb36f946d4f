import VariantScript.Proofs.Reading.Completeness.Phrase

/-!
# Finding every part

A block is taken behind an arrow wherever it fits.  With that, every part that the productions give
is found by its reader, by induction on the productions.
-/

namespace VariantScript.Syntax

open Grammar

namespace Phrase

open Outcome

/-! ## Arrow bodies -/

/-- Where nothing goes on behind a block, it is read as one behind an arrow. -/
theorem outcome_arrowBody_block {w rest : List Token} {x : Node}
    (hw : Produces (.one .block) w [x]) (hstops : Stops rest) :
    (arrowBody (w ++ rest)).outcome = (block (w ++ rest)).outcome := by
  cases hw with
  | block ho body hc =>
      have hhead (t : Token) (ht : t ∈ rest.head?) : continuesOperand t = false := by
        simpa using fun hcontinues => hstops t ht (Or.inl hcontinues)
      have hrecord := opensRecord_block body hc.1 hhead
      rw [between_append, outcome_arrowBody]
      simp [ho.1, hrecord]

theorem finds_bodyBlock {w : List Token} {x : Node} (hw : Produces (.one .block) w [x])
    (h : FindsBlock w [x]) : FindsBody w [x] := by
  obtain ⟨e, he, hread⟩ := h
  refine ⟨e, Or.inl he, fun rest hrest hstops => ?_⟩
  rw [outcome_arrowBody_block hw hstops]
  exact hread rest hrest trivial

/-- A name is found as an expression. -/
theorem finds_name {t : Token} (ht : t.Is .name) : FindsExpression [t] [referenceTree t] := by
  have suffixed := finds_suffixedPrimary (.reference ht) (finds_reference ht)
  have hsuffixed : Writes .suffixed [t] (referenceTree t) := .suffixedPrimary (.reference ht)
  have hunary : Writes .unary [t] (referenceTree t) := .unarySuffixed hsuffixed
  have product : FindsLevel .product [t] [referenceTree t] :=
    finds_levelOperand hunary (findsOperand_unary rfl (finds_unarySuffixed suffixed))
  have sum : FindsLevel .sum [t] [referenceTree t] :=
    finds_levelOperand (writes_level hunary) (findsOperand_level rfl product)
  have relation : FindsLevel .relation [t] [referenceTree t] :=
    finds_levelOperand (writes_level hunary) (findsOperand_level rfl sum)
  have equality : FindsLevel .equality [t] [referenceTree t] :=
    finds_levelOperand (writes_level hunary) (findsOperand_level rfl relation)
  have and : FindsLevel .and [t] [referenceTree t] :=
    finds_levelOperand (writes_level hunary) (findsOperand_level rfl equality)
  have or : FindsLevel .or [t] [referenceTree t] :=
    finds_levelOperand (writes_level hunary) (findsOperand_level rfl and)
  exact finds_expressionConditional (.conditionalOperand (writes_level hunary))
    (finds_conditionalOperand or)

/-- Braces that can be read both ways are found as a block. -/
theorem finds_block_of_ambiguous {w : List Token} {x : Node} (hw : Produces (.one .object) w [x])
    (h : IsAmbiguous w) : ∃ y, Writes .block w y ∧ FindsBlock w [y] := by
  cases hw with
  | object ho items hc =>
      rcases h.between with rfl | ⟨t, rfl, ht⟩
      · exact ⟨_, .block ho .statementsNil hc, finds_block ho hc finds_statementsNil⟩
      · have hname : t.Is .name := ⟨ht, (genuine_cons.1 (genuine_of_produces items)).1⟩
        have hexpression : Produces (.one .expression) [t] [referenceTree t] :=
          writes_expression (.reference hname)
        have hstatement := Produces.expressionStatement hexpression
        exact ⟨_, .block ho (.statementsLast hstatement) hc, finds_block ho hc
          (finds_statementsLast hstatement
            (finds_expressionStatement hexpression (finds_name hname)))⟩

/-- An expression that starts with a brace starts with a record. -/
theorem expression_brace {o : Token} {v : List Token} {x : Node} (ho : o.kind = .lbrace)
    (h : Produces (.one .expression) (o :: v) [x]) :
    ∃ u more m, v = u ++ more ∧ Produces (.one .object) (o :: u) [m] ∧ (more = [] → x = m) ∧
      ∀ t ∈ more.head?, continuesOperand t = true := by
  generalize heq : o :: v = w at h
  cases h with
  | expressionArrow h =>
      cases h with
      | arrowName ht =>
          obtain rfl := List.cons.inj heq |>.1
          simp [ht.1] at ho
      | arrowParams ps =>
          cases ps with
          | params hp =>
              obtain rfl := List.cons.inj heq |>.1
              simp [hp.1] at ho
  | expressionConditional hw =>
      rcases operand_of_produces hw trivial with
        ⟨op, v', rfl, hop⟩ | ⟨u, more, m, rfl, hm, hx, hmore⟩
      · obtain rfl := List.cons.inj heq |>.1
        rcases hop with hop | hop <;> simp [hop.1] at ho
      · obtain ⟨o', u, rfl⟩ := List.exists_cons_of_ne_nil (nonempty_of_produces hm trivial)
        obtain ⟨rfl, rfl⟩ := List.cons.inj heq
        refine ⟨u, more, m, rfl, ?_, fun hnil => by simpa using hx hnil, hmore⟩
        cases hm with
        | primaryObject h => exact h
        | number h | string h | trueWord h | falseWord h | reference h | functionExpression h
        | parenthesized h => simp [h.1] at ho
        | primaryArray h =>
            cases h with
            | array h => simp [h.1] at ho

/-- Where an expression behind an arrow could be a block too, the reader takes the block. -/
theorem finds_bodyExpression {w : List Token} {x : Node} (hw : Produces (.one .expression) w [x])
    (h : FindsExpression w [x]) : FindsBody w [x] := by
  obtain ⟨e, he, hread⟩ := h
  obtain ⟨o, v, rfl, -⟩ := leads_of_expression hw
  have taken (hopens : ∀ rest, Stops rest → o.kind = .lbrace → opensRecord (v ++ rest) = true) :
      FindsBody (o :: v) [x] := by
    refine ⟨e, Or.inl he, fun rest hrest hstops => ?_⟩
    have hexpression : (expression (o :: (v ++ rest))).outcome = .ok (e, rest) :=
      hread rest hrest hstops
    rw [List.cons_append, outcome_arrowBody]
    dsimp only
    rw [if_neg (by simpa using hopens rest hstops), hexpression]
  by_cases ho : o.kind = .lbrace
  · obtain ⟨u, more, m, rfl, hm, hx, hmore⟩ := expression_brace ho hw
    cases more with
    | cons b more =>
        refine taken fun rest _ _ => ?_
        rw [List.append_assoc, List.cons_append]
        exact opensRecord_continued hm (hmore b rfl)
    | nil =>
        obtain rfl := hx rfl
        rw [List.append_nil] at hread taken ⊢
        rcases opensRecord_object hm with hambiguous | hopens
        · obtain ⟨y, hy, b, -, hblock⟩ := finds_block_of_ambiguous hm hambiguous
          have hboth : BothWays b.toNode x := by
            have hread : (block (o :: u ++ [])).outcome = .ok (b, []) :=
              hblock [] genuine_nil trivial
            have hgenuine : Genuine (o :: u ++ []) := by simpa using genuine_of_produces hm
            have hsound := sound_block hgenuine
            rw [hread] at hsound
            obtain ⟨w, hw, hproduces⟩ := hsound
            obtain rfl : o :: u = w := by simpa using hw
            obtain ⟨n, hn, hbn⟩ := (reads_iff_produces (by decide)).2 hproduces
            obtain ⟨n', hn', hxn⟩ := (reads_iff_produces (by decide)).2 hm
            exact ⟨o :: u, n, n', hambiguous, hn, hn', hbn, hxn⟩
          refine ⟨b, Or.inr ⟨x, rfl, hboth⟩, fun rest hrest hstops => ?_⟩
          rw [outcome_arrowBody_block hy hstops]
          exact hblock rest hrest trivial
        · exact taken fun rest _ _ => hopens rest
  · exact taken fun _ _ hk => absurd hk ho

/-! ## Every part -/

theorem found_listLast {r : Rule} {w : List Token} {x : Node} (hw : Produces (.one r) w [x])
    (h : Found (.one r) w [x]) : Found (.list r) w [x] := by
  have closing {close : TokenKind} (hclose : close.closes = true) (c : Token) (rest : List Token)
      (hc : c.kind = close) : Stops (c :: rest) := stops_closing (by rw [hc]; exact hclose)
  have noColon (c : Token) (rest : List Token) (hc : c.kind = .rbrace) : NoColon (c :: rest) := by
    rintro _ ⟨⟩
    simp [hc]
  cases r with
  | pattern =>
      intro close hclose
      exact findsList_last (r := .pattern) (outcome_patterns close) trivial hclose hw h
        fun _ _ _ => trivial
  | patternField =>
      exact findsList_last (r := .patternField) outcome_patternFields trivial rfl hw h noColon
  | expression =>
      intro close hclose
      exact findsList_last (r := .expression) (outcome_expressions close) trivial hclose hw h
        (closing hclose)
  | field =>
      exact findsList_last (r := .field) outcome_fields trivial rfl hw h fun c rest hc =>
        ⟨closing rfl c rest hc, noColon c rest hc⟩
  | _ => trivial

theorem found_listMore {r : Rule} {c : Token} {u v : List Token} {x : Node} {ns : List Node}
    (hu : Produces (.one r) u [x]) (hc : c.Is .comma) (hv : Genuine v) (h : Found (.one r) u [x])
    (items : Found (.list r) v ns) : Found (.list r) (u ++ c :: v) (x :: ns) := by
  have comma (c : Token) (rest : List Token) (hc : c.kind = .comma) : Stops (c :: rest) :=
    stops_cons (by simp [hc])
  have noColon (c : Token) (rest : List Token) (hc : c.kind = .comma) : NoColon (c :: rest) := by
    rintro _ ⟨⟩
    simp [hc]
  cases r with
  | pattern =>
      intro close hclose
      exact findsList_more (r := .pattern) (outcome_patterns close) trivial hclose hu h
        (fun _ _ _ => trivial) hc hv (items close hclose)
  | patternField =>
      exact findsList_more (r := .patternField) outcome_patternFields trivial rfl hu h noColon hc hv
        items
  | expression =>
      intro close hclose
      exact findsList_more (r := .expression) (outcome_expressions close) trivial hclose hu h comma
        hc hv (items close hclose)
  | field =>
      exact findsList_more (r := .field) outcome_fields trivial rfl hu h
        (fun c rest hc => ⟨comma c rest hc, noColon c rest hc⟩) hc hv items
  | _ => trivial

theorem found_listNil (r : Rule) : Found (.list r) [] [] := by
  cases r with
  | pattern => exact fun close _ => findsList_nil (outcome_patterns close)
  | patternField => exact findsList_nil outcome_patternFields
  | expression => exact fun close _ => findsList_nil (outcome_expressions close)
  | field => exact findsList_nil outcome_fields
  | _ => trivial

/-- Every part is found by its reader. -/
theorem found_of_produces {p : Part} {w : List Token} {ns : List Node} (h : Produces p w ns) :
    Found p w ns := by
  induction h with
  | listNil => exact found_listNil _
  | listLast item ih => exact found_listLast item ih
  | listMore item hc items ihItem ihItems =>
      exact found_listMore item hc (genuine_of_produces items) ihItem ihItems
  | patternName ht => exact finds_patternName ht
  | patternArray ho _ hc ih => exact finds_patternArray ho hc (ih .rsqb rfl)
  | patternRecord ho _ hc ih => exact finds_patternRecord ho hc ih
  | patternField hk hc _ ih => exact finds_patternField hk hc ih
  | patternShorthand ht => exact finds_patternShorthand ht
  | params ho _ hc ih => exact finds_params ho hc (ih .rpar rfl)
  | expressionArrow _ ih => exact ih
  | expressionConditional h ih => exact finds_expressionConditional h ih
  | arrowName ht ha _ ih => exact finds_arrowName ht ha ih
  | arrowParams ps ha body ihParams ihBody =>
      exact finds_arrowParams ps ha (genuine_of_produces body) ihParams ihBody
  | bodyBlock h ih => exact finds_bodyBlock h ih
  | bodyExpression h ih => exact finds_bodyExpression h ih
  | conditionalOperand _ ih => exact finds_conditionalOperand ih
  | ternary condition hq yes hc no ihCondition ihYes ihNo =>
      exact finds_ternary condition (genuine_of_produces yes) (genuine_of_produces no) ihCondition
        hq ihYes hc ihNo
  | levelOperand h ih => exact finds_levelOperand h (findsOperand_of_found ih)
  | operation left hop right ihLeft ihRight =>
      exact finds_operation left hop (genuine_of_produces right) ihLeft
        (findsOperand_of_found ihRight)
  | unarySuffixed _ ih => exact finds_unarySuffixed ih
  | unaryOperation hop _ ih => exact finds_unaryOperation hop ih
  | suffixedPrimary h ih => exact finds_suffixedPrimary h ih
  | call callee ho args hc ihCallee ihArgs =>
      exact finds_call callee ihCallee ho hc (genuine_of_produces args) (ihArgs .rpar rfl)
  | member receiver ho ht ih => exact finds_member receiver ih ho ht
  | index receiver ho position hc ihReceiver ihPosition =>
      exact finds_index receiver ihReceiver ho hc (genuine_of_produces position) ihPosition
  | number ht => exact finds_number ht
  | string ht => exact finds_string ht
  | trueWord ht => exact finds_trueWord ht
  | falseWord ht => exact finds_falseWord ht
  | reference ht => exact finds_reference ht
  | primaryArray _ ih | primaryObject _ ih => exact ih
  | functionExpression ht _ body ihParams ihBody =>
      exact finds_functionExpression ht (genuine_of_produces body) ihParams ihBody
  | parenthesized ho _ hc ih => exact finds_parenthesized ho hc ih
  | array ho _ hc ih => exact finds_array ho hc (ih .rsqb rfl)
  | object ho _ hc ih => exact finds_object ho hc ih
  | field hk hc _ ih => exact finds_field hk hc ih
  | fieldShorthand ht => exact finds_fieldShorthand ht
  | start _ ih => exact finds_start ih
  | statementsNil => exact finds_statementsNil
  | statementsLast h ih => exact finds_statementsLast h ih
  | statementsSemicolon hs _ ih => exact finds_statementsSemicolon hs ih
  | statementsSimple h hs others ih ihOthers =>
      exact finds_statementsSimple h (genuine_of_produces others) ih hs ihOthers
  | statementsCompound _ others ih ihOthers => exact finds_statementsCompound others ih ihOthers
  | block ho _ hc ih => exact finds_block ho hc ih
  | simpleDeclaration _ ih | simpleReturn _ ih | simpleThrow _ ih => exact ih
  | expressionStatement h ih => exact finds_expressionStatement h ih
  | declaration ht _ ho value ihPattern ihValue =>
      exact finds_declaration ht ho (genuine_of_produces value) ihPattern ihValue
  | returnNothing ht => exact finds_returnNothing ht
  | returnValue ht value ih => exact finds_returnValue ht value ih
  | throwValue ht _ ih => exact finds_throwValue ht ih
  | compoundFunction h ih => exact finds_compoundFunction h ih
  | compoundIf h ih => exact finds_compoundIf h ih
  | functionDeclaration ht hn _ body ihParams ihBody =>
      exact finds_functionDeclaration ht hn (genuine_of_produces body) ihParams ihBody
  | ifThen ht ho _ hc yes ihCondition ihYes =>
      exact finds_ifThen ht ho hc (genuine_of_produces yes) ihCondition ihYes
  | ifElse ht ho _ hc yes hq no ihCondition ihYes ihNo =>
      exact finds_ifElse ht ho hc (genuine_of_produces yes) ihCondition ihYes hq
        (genuine_of_produces no) no ihNo
  | ifElseIf ht ho _ hc yes hq no ihCondition ihYes ihNo =>
      exact finds_ifElseIf ht ho hc (genuine_of_produces yes) ihCondition ihYes hq
        (genuine_of_produces no) no ihNo

/-- A program is read from whatever the productions give. -/
theorem program_of_produces {w : List Token} {n : Node} (h : Produces (.one .start) w [n]) :
    ∃ t, program w = .ok t ∧ Prefers t.toNode n :=
  found_of_produces h

end Phrase

end VariantScript.Syntax
