import VariantScript.Proofs.Reading.Completeness.Step

/-!
# Finding operands

An operand is found with what goes on behind it, as long as that holds it tightly enough.
-/

namespace VariantScript.Syntax

open Grammar

namespace Phrase

open Outcome

/-! ## Operands -/

/-- Behind a left operand, nothing is read that holds it differently than the level does. -/
theorem chainRest_stop {l : Level} (start : Option Position) (e : Term) {rest : List Token}
    (h : headGrip rest ≠ l.grip) : (chainRest l start e rest).outcome = .ok (e, rest) := by
  rw [outcome_chainRest]
  cases rest with
  | nil => rfl
  | cons op rest =>
      dsimp only
      rw [if_neg]
      rwa [l.accepts_iff]

theorem postfixRest_stop (start : Option Position) (e : Term) {rest : List Token}
    (h : headGrip rest < 8) : (postfixRest start e rest).outcome = .ok (e, rest) := by
  rw [outcome_postfixRest]
  cases rest with
  | nil => rfl
  | cons t rest =>
      have hpar : t.kind ≠ .lpar := fun hk => by simp [headGrip, hk, TokenKind.grip] at h
      have hdot : t.kind ≠ .dot := fun hk => by simp [headGrip, hk, TokenKind.grip] at h
      have hsqb : t.kind ≠ .lsqb := fun hk => by simp [headGrip, hk, TokenKind.grip] at h
      simp [hpar, hdot, hsqb]

theorem findsOperand_level {l k : Level} (hl : l.tighter? = some k) {w : List Token}
    {ns : List Node} (h : FindsLevel k w ns) : FindsOperand l w ns := by
  obtain ⟨e, he, hread⟩ := h
  refine Finds.intro e rfl he fun rest hrest hgrip => ?_
  -- What stands behind holds the operand no more tightly than this level, so the tighter one stops.
  have hlt := Level.grip_tighter hl
  have hk : (chain k (w ++ rest)).outcome = (chainRest k (startOf w) e rest).outcome :=
    hread rest hrest (by omega)
  have hoperand : (operand l (w ++ rest)).outcome = (chain k (w ++ rest)).outcome := by
    simp only [operand, hl]
  rw [hoperand, hk, chainRest_stop _ _ (by omega)]

theorem findsOperand_unary {l : Level} (hl : l.tighter? = none) {w : List Token}
    {ns : List Node} (h : FindsUnary w ns) : FindsOperand l w ns := by
  obtain ⟨e, he, hread⟩ := h
  refine Finds.intro e rfl he fun rest hrest hgrip => ?_
  have hproduct : l.grip = 7 := by
    cases l <;> cases hl
    rfl
  have hoperand : (operand l (w ++ rest)).outcome = (unary (w ++ rest)).outcome := by
    simp only [operand, hl]
  rw [hoperand]
  exact hread rest hrest (by omega)

theorem findsOperand_of_found {l : Level} {w : List Token} {ns : List Node}
    (h : Found (.one (Rule.operand l)) w ns) : FindsOperand l w ns := by
  cases l with
  | or => exact findsOperand_level (k := .and) rfl h
  | and => exact findsOperand_level (k := .equality) rfl h
  | equality => exact findsOperand_level (k := .relation) rfl h
  | relation => exact findsOperand_level (k := .sum) rfl h
  | sum => exact findsOperand_level (k := .product) rfl h
  | product => exact findsOperand_unary rfl h

theorem finds_levelOperand {l : Level} {w : List Token} {x : Node}
    (hw : Produces (.one (Rule.operand l)) w [x]) (h : FindsOperand l w [x]) :
    FindsLevel l w [x] := by
  obtain ⟨e, he, hread⟩ := h
  refine ⟨e, he, fun rest hrest hgrip => ?_⟩
  have hoperand : (operand l (w ++ rest)).outcome = .ok (e, rest) := hread rest hrest hgrip
  have hne := nonempty_of_produces hw (isFilled_operand l)
  simp only [outcome_chain, hoperand, Outcome.andThen_ok, startOf_append rest hne]

theorem finds_operation {l : Level} {op : Token} {u v : List Token} {x y : Node}
    (hu : Produces (.one (.level l)) u [x]) (hop : op.IsOperator l) (hv : Genuine v)
    (left : FindsLevel l u [x]) (right : FindsOperand l v [y]) :
    FindsLevel l (u ++ op :: v)
      [.tree (operationLabel l) (startOf (u ++ op :: v)) (x :: (operatorLeaves l op ++ [y]))] := by
  obtain ⟨e, he, hleft⟩ := left
  obtain ⟨f, hf, hright⟩ := right
  have hstart := startOf_append (op :: v) (nonempty_of_produces hu trivial)
  refine ⟨.node (startOf u) (l.combine op e f), ?_, fun rest hrest hgrip => ?_⟩
  · rw [toNode_combine hop, hstart]
    exact .under (he.cons (.append (.refl _) hf))
  · have haccepts := hop.1
    have hgripOp := (l.accepts_iff op.kind).1 haccepts
    have hbehind : Genuine (op :: (v ++ rest)) := by
      simp [hop.2, hv, hrest]
    -- On the left the chain is not finished: the operator is the next that it accepts.
    have hchain : (chain l (u ++ op :: (v ++ rest))).outcome =
        (chainRest l (startOf u) e (op :: (v ++ rest))).outcome :=
      hleft _ hbehind (Nat.le_of_eq hgripOp)
    have hoperand : (operand l (v ++ rest)).outcome = .ok (f, rest) := hright rest hrest hgrip
    have happend : u ++ op :: v ++ rest = u ++ op :: (v ++ rest) := by simp
    dsimp only
    rw [happend, hchain, hstart, outcome_chainRest]
    simp only [haccepts, if_true, hoperand, Outcome.andThen_ok]

theorem finds_unarySuffixed {w : List Token} {x : Node} (h : FindsSuffixed w [x]) :
    FindsUnary w [x] := by
  obtain ⟨e, he, hread⟩ := h
  refine Finds.intro e rfl he fun rest hrest hgrip => ?_
  have hunary : (unary (w ++ rest)).outcome = (postfixRest (startOf w) e rest).outcome :=
    hread rest hrest trivial
  rw [hunary, postfixRest_stop _ _ hgrip]

theorem finds_unaryOperation {op : Token} {w : List Token} {x : Node} (hop : op.IsPrefixOperator)
    (operand : FindsUnary w [x]) :
    FindsUnary (op :: w) [.tree "unary" (some op.pos) [op.leaf, x]] := by
  obtain ⟨e, he, hread⟩ := operand
  rcases hop with hop | hop
  · refine Finds.intro (.node (some op.pos) (.unary .not op.pos e)) rfl ?_
      fun rest hrest hgrip => ?_
    · have hleaf : Node.leaf UnaryOp.not.kind ⟨UnaryOp.not.spelling, op.pos⟩ = op.leaf := by
        simp [Token.leaf, Token.spelled, UnaryOp.kind, UnaryOp.spelling, hop.1, bang_text hop]
      rw [Term.toNode, Form.toNode, hleaf]
      exact .under (.pair (.refl _) he)
    · have hw : (unary (w ++ rest)).outcome = .ok (e, rest) := hread rest hrest hgrip
      simp only [List.cons_append, outcome_unary, hop.1, if_true, hw, Outcome.map_ok]
  · refine Finds.intro (.node (some op.pos) (.unary .negate op.pos e)) rfl ?_
      fun rest hrest hgrip => ?_
    · have hleaf : Node.leaf UnaryOp.negate.kind ⟨UnaryOp.negate.spelling, op.pos⟩ = op.leaf := by
        simp [Token.leaf, Token.spelled, UnaryOp.kind, UnaryOp.spelling, hop.1, minus_text hop]
      rw [Term.toNode, Form.toNode, hleaf]
      exact .under (.pair (.refl _) he)
    · have hw : (unary (w ++ rest)).outcome = .ok (e, rest) := hread rest hrest hgrip
      rw [List.cons_append, outcome_unary]
      simp [hop.1, hw]

/-! ## Suffixes -/

theorem finds_suffixedPrimary {w : List Token} {x : Node} (hw : Produces (.one .primary) w [x])
    (h : FindsPrimary w [x]) : FindsSuffixed w [x] := by
  obtain ⟨e, he, hread⟩ := h
  -- No primary starts with an operator, so the reader of operands gets to it at once.
  obtain ⟨t, v, rfl, ht⟩ : ∃ t v, w = t :: v ∧ t.kind ≠ .bang ∧ t.kind ≠ .minus := by
    cases opens_of_primary hw with
    | literal ht =>
        simp only [List.mem_cons, List.not_mem_nil, or_false] at ht
        exact ⟨_, _, rfl, by rcases ht with ht | ht | ht | ht | ht <;> simp [ht]⟩
    | array ht | object ht | parenthesis ht | function ht => exact ⟨_, _, rfl, by simp [ht]⟩
  refine ⟨e, he, fun rest hrest _ => ?_⟩
  have hprimary : (primary (t :: (v ++ rest))).outcome = .ok (e, rest) := hread rest hrest trivial
  dsimp only
  rw [List.cons_append, outcome_unary]
  simp [ht.1, ht.2, hprimary, startOf]

section

variable {o c : Token} {u v : List Token} {x : Node} (hu : Produces (.one .suffixed) u [x])
  (first : FindsSuffixed u [x])

include hu first

theorem finds_call {ns : List Node} (ho : o.Is .lpar) (hc : c.Is .rpar) (hv : Genuine v)
    (args : FindsExpressions .rpar v ns) :
    FindsSuffixed (u ++ o :: (v ++ [c]))
      [.tree "call" (startOf (u ++ o :: (v ++ [c]))) (x :: ns)] := by
  obtain ⟨e, he, hfirst⟩ := first
  obtain ⟨es, hes, hread⟩ := args
  rw [startOf_append _ (nonempty_of_produces hu trivial)]
  refine ⟨.node (startOf u) (.call e es), ?_, fun rest hrest _ => ?_⟩
  · rw [Term.toNode, Form.toNode, toNodes_term]
    exact .under (he.cons hes)
  · have hbehind : Genuine (o :: (v ++ c :: rest)) := by
      simp [ho.2, hv, hc.2, hrest]
    have hunary : (unary (u ++ o :: (v ++ c :: rest))).outcome =
        (postfixRest (startOf u) e (o :: (v ++ c :: rest))).outcome := hfirst _ hbehind trivial
    have hargs : (expressions .rpar (v ++ c :: rest)).outcome = .ok (es, rest) :=
      hread c rest hc.1 (genuine_cons.2 ⟨hc.2, hrest⟩)
    have happend : u ++ o :: (v ++ [c]) ++ rest = u ++ o :: (v ++ c :: rest) := by simp
    dsimp only
    rw [happend, startOf_append _ (nonempty_of_produces hu trivial), hunary, outcome_postfixRest]
    simp [ho.1, hargs]

theorem finds_member {t : Token} (ho : o.Is .dot) (ht : t.Is .name) :
    FindsSuffixed (u ++ [o, t]) [.tree "member" (startOf (u ++ [o, t])) [x, t.leaf]] := by
  obtain ⟨e, he, hfirst⟩ := first
  rw [startOf_append _ (nonempty_of_produces hu trivial)]
  refine ⟨.node (startOf u) (.member e t.spelled), ?_, fun rest hrest _ => ?_⟩
  · rw [Term.toNode, Form.toNode, leaf_of_is ht]
    exact .under (.pair he (.refl _))
  · have hbehind : Genuine (o :: t :: rest) := by
      simp [ho.2, ht.2, hrest]
    have hunary : (unary (u ++ o :: t :: rest)).outcome =
        (postfixRest (startOf u) e (o :: t :: rest)).outcome := hfirst _ hbehind trivial
    have happend : u ++ [o, t] ++ rest = u ++ o :: t :: rest := by simp
    dsimp only
    rw [happend, startOf_append _ (nonempty_of_produces hu trivial), hunary, outcome_postfixRest]
    simp [ho.1, token, ht.1]

theorem finds_index {y : Node} (ho : o.Is .lsqb) (hc : c.Is .rsqb) (hv : Genuine v)
    (position : FindsExpression v [y]) :
    FindsSuffixed (u ++ o :: (v ++ [c]))
      [.tree "index" (startOf (u ++ o :: (v ++ [c]))) [x, y]] := by
  obtain ⟨e, he, hfirst⟩ := first
  obtain ⟨i, hi, hread⟩ := position
  rw [startOf_append _ (nonempty_of_produces hu trivial)]
  refine ⟨.node (startOf u) (.index e i), ?_, fun rest hrest _ => ?_⟩
  · rw [Term.toNode, Form.toNode]
    exact .under (.pair he hi)
  · have hbehind : Genuine (o :: (v ++ c :: rest)) := by
      simp [ho.2, hv, hc.2, hrest]
    have hunary : (unary (u ++ o :: (v ++ c :: rest))).outcome =
        (postfixRest (startOf u) e (o :: (v ++ c :: rest))).outcome := hfirst _ hbehind trivial
    have hposition : (expression (v ++ c :: rest)).outcome = .ok (i, c :: rest) :=
      hread _ (genuine_cons.2 ⟨hc.2, hrest⟩) (stops_cons (by simp [hc.1]))
    have happend : u ++ o :: (v ++ [c]) ++ rest = u ++ o :: (v ++ c :: rest) := by simp
    dsimp only
    rw [happend, startOf_append _ (nonempty_of_produces hu trivial), hunary, outcome_postfixRest]
    simp [ho.1, hposition, token, hc.1]

end

/-! ## Primaries -/

section

variable {t : Token}

theorem finds_number (ht : t.Is .number) :
    FindsPrimary [t] [.tree "number" (some t.pos) [t.leaf]] := by
  refine Finds.intro (.node (some t.pos) (.number t.spelled))
    (by rw [Term.toNode, Form.toNode, leaf_of_is ht]) (.refl _) fun rest _ _ => ?_
  simp [outcome_primary, ht.1]

theorem finds_string (ht : t.Is .string) :
    FindsPrimary [t] [.tree "string" (some t.pos) [t.leaf]] := by
  refine Finds.intro (.node (some t.pos) (.string t.spelled))
    (by rw [Term.toNode, Form.toNode, leaf_of_is ht]) (.refl _) fun rest _ _ => ?_
  simp [outcome_primary, ht.1]

theorem finds_trueWord (ht : t.Is (.keyword .trueWord)) :
    FindsPrimary [t] [.tree "true" (some t.pos) []] := by
  refine Finds.intro (.node (some t.pos) (.truth true)) (by simp [Term.toNode, Form.toNode])
    (.refl _) fun rest _ _ => ?_
  simp [outcome_primary, ht.1]

theorem finds_falseWord (ht : t.Is (.keyword .falseWord)) :
    FindsPrimary [t] [.tree "false" (some t.pos) []] := by
  refine Finds.intro (.node (some t.pos) (.truth false)) (by simp [Term.toNode, Form.toNode])
    (.refl _) fun rest _ _ => ?_
  simp [outcome_primary, ht.1]

theorem finds_reference (ht : t.Is .name) : FindsPrimary [t] [referenceTree t] := by
  refine Finds.intro (.node (some t.pos) (.reference t.spelled))
    (by rw [Term.toNode, Form.toNode, leaf_of_is ht, referenceTree]) (.refl _) fun rest _ _ => ?_
  simp [outcome_primary, ht.1]

end

section

variable {o c : Token} {w : List Token}

theorem finds_array {ns : List Node} (ho : o.Is .lsqb) (hc : c.Is .rsqb)
    (items : FindsExpressions .rsqb w ns) :
    FindsPrimary (o :: (w ++ [c])) [.tree "array" (some o.pos) ns] := by
  obtain ⟨es, hes, hread⟩ := items
  refine Finds.intro (.node (some o.pos) (.array es))
    (by rw [Term.toNode, Form.toNode, toNodes_term]) hes.under fun rest hrest _ => ?_
  have hw : (expressions .rsqb (w ++ c :: rest)).outcome = .ok (es, rest) :=
    hread c rest hc.1 (genuine_cons.2 ⟨hc.2, hrest⟩)
  rw [between_append, outcome_primary]
  simp [ho.1, hw]

theorem finds_object {ns : List Node} (ho : o.Is .lbrace) (hc : c.Is .rbrace)
    (items : FindsFields w ns) :
    FindsPrimary (o :: (w ++ [c])) [.tree "object" (some o.pos) ns] := by
  obtain ⟨fs, hfs, hread⟩ := items
  refine Finds.intro (.node (some o.pos) (.record fs))
    (by rw [Term.toNode, Form.toNode, toNodes_field]) hfs.under fun rest hrest _ => ?_
  have hw : (fields (w ++ c :: rest)).outcome = .ok (fs, rest) :=
    hread c rest hc.1 (genuine_cons.2 ⟨hc.2, hrest⟩)
  rw [between_append, outcome_primary]
  simp [ho.1, hw]

theorem finds_parenthesized {x : Node} (ho : o.Is .lpar) (hc : c.Is .rpar)
    (h : FindsExpression w [x]) : FindsPrimary (o :: (w ++ [c])) [x] := by
  obtain ⟨e, he, hread⟩ := h
  refine Finds.intro e rfl he fun rest hrest _ => ?_
  have hw : (expression (w ++ c :: rest)).outcome = .ok (e, c :: rest) :=
    hread _ (genuine_cons.2 ⟨hc.2, hrest⟩) (stops_cons (by simp [hc.1]))
  rw [between_append, outcome_primary]
  simp [ho.1, hw, token, hc.1]

end

theorem finds_functionExpression {t : Token} {u v : List Token} {x y : Node}
    (ht : t.Is (.keyword .functionWord)) (hv : Genuine v) (ps : FindsParams u [x])
    (body : FindsBlock v [y]) :
    FindsPrimary (t :: (u ++ v)) [.tree "function_expr" (some t.pos) [x, y]] := by
  obtain ⟨p, hp, hparams⟩ := ps
  obtain ⟨b, hb, hblock⟩ := body
  refine Finds.intro (.node (some t.pos) (.functionExpression p b))
    (by rw [Term.toNode, Form.toNode]) (.under (.pair hp hb)) fun rest hrest _ => ?_
  have hu : (params (u ++ (v ++ rest))).outcome = .ok (p, v ++ rest) :=
    hparams _ (genuine_append.2 ⟨hv, hrest⟩) trivial
  have hbody : (block (v ++ rest)).outcome = .ok (b, rest) := hblock rest hrest trivial
  rw [List.cons_append, List.append_assoc, outcome_primary]
  simp [ht.1, hu, hbody]

theorem finds_field {k c : Token} {w : List Token} {x : Node} (hk : k.IsKey) (hc : c.Is .colon)
    (value : FindsExpression w [x]) :
    FindsField (k :: c :: w) [.tree "field" (some k.pos) [keyTree k, x]] := by
  obtain ⟨e, he, hread⟩ := value
  refine Finds.intro (.mk (some k.pos) (keyOf k) e) (by rw [Field.toNode, toNode_keyOf hk])
    (.under (.pair (.refl _) he)) fun rest hrest hfits => ?_
  have hw : (expression (w ++ rest)).outcome = .ok (e, rest) := hread rest hrest hfits.1
  rw [List.cons_append, List.cons_append, outcome_field, fieldStep_value hk hc, hw]
  rfl

theorem finds_fieldShorthand {t : Token} (ht : t.Is .name) :
    FindsField [t] [.tree "field" (some t.pos) [shorthandKeyTree t, referenceTree t]] := by
  refine Finds.intro (field.shorthand t) (by rw [toNode_fieldShorthand ht]) (.refl _)
    fun rest _ hfits => ?_
  rw [List.singleton_append, outcome_field, fieldStep_shorthand ht hfits.2]

end Phrase

end VariantScript.Syntax
