import VariantScript.Proofs.Grammar.Production

/-!
# From rules to productions

What a rule derives is what the productions say about it.  An expansion is read with the productions
in the place of its rules; then every alternative of a rule turns into a production.
-/

namespace VariantScript.Syntax.Grammar

open Phrase (Level)

/-! ## Expansions over given rules -/

/-- Any number of pieces one behind the other. -/
inductive Repeats (P : List Token → List Node → Prop) : List Token → List Node → Prop where
  | nil : Repeats P [] []
  | cons {u v : List Token} {xs ys : List Node} (first : P u xs) (others : Repeats P v ys) :
      Repeats P (u ++ v) (xs ++ ys)

/-- What an expansion derives if `D` says what the rules in it derive. -/
def Expansion.Holds (D : Rule → List Token → List Node → Prop) :
    Expansion → List Token → List Node → Prop
  | .empty, w, xs => w = [] ∧ xs = []
  | .mark kind, w, xs => ∃ t : Token, t.Is kind ∧ w = [t] ∧ xs = []
  | .terminal kind, w, xs => ∃ t : Token, t.Is kind ∧ w = [t] ∧ xs = [.leaf kind t.spelled]
  | .rule r, w, xs => D r w xs
  | .seq a b, w, xs =>
      ∃ u ys v zs, a.Holds D u ys ∧ b.Holds D v zs ∧ w = u ++ v ∧ xs = ys ++ zs
  | .either a b, w, xs => a.Holds D w xs ∨ b.Holds D w xs
  | .optional a, w, xs => (w = [] ∧ xs = []) ∨ a.Holds D w xs
  | .many a, w, xs => Repeats (a.Holds D) w xs

/-! ## What the productions say about rules -/

/-- What the productions say about a rule and its trees before they are normalized. -/
def Rule.Means (r : Rule) (w : List Token) (xs : List Node) : Prop :=
  match r with
  | .terminated =>
      (∃ s : Token, s.Is .semicolon ∧ w = [s] ∧ xs = []) ∨
        (∃ (u : List Token) (s : Token) (x : Node),
          Produces (.one .simpleStatement) u [x.normalize] ∧ s.Is .semicolon ∧ w = u ++ [s] ∧
            xs = [x]) ∨
        ∃ x : Node, Produces (.one .compoundStatement) w [x.normalize] ∧ xs = [x]
  | .singleParam =>
      ∃ t : Token, t.Is .name ∧ w = [t] ∧ xs = [.tree "single_param" (some t.pos) [t.leaf]]
  | .key => ∃ t : Token, t.IsKey ∧ w = [t] ∧ xs = [keyTree t]
  | r => ∃ x : Node, Produces (.one r) w [x.normalize] ∧ xs = [x]

/-- A rule whose trees the productions give after they are normalized. -/
def Rule.IsPlain (r : Rule) : Prop :=
  ∀ w xs, r.Means w xs ↔ ∃ x : Node, Produces (.one r) w [x.normalize] ∧ xs = [x]

theorem leaf_of_is {t : Token} {kind : TokenKind} (h : t.Is kind) :
    Node.leaf kind t.spelled = t.leaf := by
  rw [Token.leaf, h.1]

/-- A list with commas, put together from its first item and those behind commas. -/
theorem produces_list_of_repeats {r : Rule} (hr : r.IsPlain) {w u v : List Token} {x : Node}
    {ys zs : List Node} (item : Produces (.one r) w [x])
    (items : Repeats ((Expansion.sequence [.mark .comma, .rule r]).Holds Rule.Means) u ys)
    (trailing : (Expansion.optional (.mark .comma)).Holds Rule.Means v zs) :
    zs = [] ∧ Produces (.list r) (w ++ (u ++ v)) (x :: Node.normalizeAll ys) := by
  induction items generalizing w x with
  | nil =>
      -- Behind the last item there is no comma or one, and the list ends in either case.
      rcases trailing with ⟨rfl, rfl⟩ | ⟨c, hc, rfl, rfl⟩
      · exact ⟨rfl, by simpa using Produces.listLast item⟩
      · exact ⟨rfl, Produces.listMore item hc .listNil⟩
  | cons first others ih =>
      obtain ⟨_, _, u', ys', ⟨c, hc, rfl, rfl⟩, second, rfl, rfl⟩ := first
      obtain ⟨y, hy, rfl⟩ := (hr _ _).1 second
      obtain ⟨hzs, hlist⟩ := ih hy
      exact ⟨hzs, by simpa using Produces.listMore item hc hlist⟩

theorem produces_list_of_holds {r : Rule} (hr : r.IsPlain) {w : List Token} {xs : List Node}
    (h : (Expansion.commaList (.rule r)).Holds Rule.Means w xs) :
    Produces (.list r) w (Node.normalizeAll xs) := by
  rcases h with ⟨rfl, rfl⟩ | ⟨_, _, _, _, first, ⟨_, _, _, _, items, trailing, rfl, rfl⟩, rfl, rfl⟩
  · exact .listNil
  · obtain ⟨x, hx, rfl⟩ := (hr _ _).1 first
    obtain ⟨rfl, hlist⟩ := produces_list_of_repeats hr hx items trailing
    simpa using hlist

theorem produces_statements_of_holds {w : List Token} {xs : List Node}
    (h : Expansion.statements.Holds Rule.Means w xs) :
    Produces .statements w (Node.normalizeAll xs) := by
  obtain ⟨_, _, v, zs, items, last, rfl, rfl⟩ := h
  induction items with
  | nil =>
      rcases last with ⟨rfl, rfl⟩ | ⟨x, hx, rfl⟩
      · exact .statementsNil
      · exact .statementsLast hx
  | cons first others ih =>
      rcases first with ⟨s, hs, rfl, rfl⟩ | ⟨u, s, x, hx, hs, rfl, rfl⟩ | ⟨x, hx, rfl⟩
      · simpa using Produces.statementsSemicolon hs ih
      · simpa using Produces.statementsSimple hx hs ih
      · simpa using Produces.statementsCompound hx ih

theorem isPlain_of_ne {r : Rule} (h : r ∉ [Rule.terminated, .singleParam, .key]) : r.IsPlain := by
  intro w xs
  unfold Rule.Means
  split <;> simp_all

theorem params_label {w : List Token} {x : Node} (h : Produces (.one .params) w [x]) :
    ∃ ns, x = .tree "params" (startOf w) ns := by
  cases h with
  | params ho items hc => exact ⟨_, rfl⟩

@[simp] theorem normalize_leaf_token (t : Token) : t.leaf.normalize = t.leaf := by
  simp [Token.leaf]

/-- An expansion between an opening and a closing mark. -/
theorem holds_between {D : Rule → List Token → List Node → Prop} {opening closing : TokenKind}
    {e : Expansion} {w : List Token} {xs : List Node}
    (h : (Expansion.sequence [.mark opening, e, .mark closing]).Holds D w xs) :
    ∃ (o : Token) (u : List Token) (c : Token), o.Is opening ∧ e.Holds D u xs ∧ c.Is closing ∧
      w = o :: (u ++ [c]) := by
  obtain ⟨_, _, _, _, ⟨o, ho, rfl, rfl⟩, ⟨u, _, _, _, he, ⟨c, hc, rfl, rfl⟩, rfl, rfl⟩, rfl, rfl⟩ :=
    h
  exact ⟨o, u, c, ho, by simpa using he, hc, rfl⟩

section

variable {alternative : Expansion × Option String} {w : List Token} {xs : List Node}

theorem means_pattern (mem : alternative ∈ Rule.pattern.alternatives)
    (h : alternative.1.Holds Rule.Means w xs) :
    Rule.pattern.Means w (Rule.pattern.build alternative.2 w xs) := by
  simp only [Rule.alternatives, List.mem_cons, List.not_mem_nil, or_false] at mem
  rcases mem with rfl | rfl | rfl
  · obtain ⟨t, ht, rfl, rfl⟩ := h
    refine ⟨_, ?_, rfl⟩
    simpa [Node.respell, startOf, leaf_of_is ht, bindTree] using Produces.patternName ht
  · obtain ⟨o, u, c, ho, items, hc, rfl⟩ := holds_between h
    refine ⟨_, ?_, rfl⟩
    have hitems := produces_list_of_holds (isPlain_of_ne (by decide)) items
    simpa [Node.respell, startOf] using Produces.patternArray ho hitems hc
  · obtain ⟨o, u, c, ho, items, hc, rfl⟩ := holds_between h
    refine ⟨_, ?_, rfl⟩
    have hitems := produces_list_of_holds (isPlain_of_ne (by decide)) items
    simpa [Node.respell, startOf] using Produces.patternRecord ho hitems hc

theorem means_patternField (mem : alternative ∈ Rule.patternField.alternatives)
    (h : alternative.1.Holds Rule.Means w xs) :
    Rule.patternField.Means w (Rule.patternField.build alternative.2 w xs) := by
  simp only [Rule.alternatives, List.mem_cons, List.not_mem_nil, or_false] at mem
  rcases mem with rfl | rfl
  · obtain ⟨_, _, _, _, ⟨k, hk, rfl, rfl⟩, ⟨_, _, _, _, ⟨c, hc, rfl, rfl⟩, ⟨x, hx, rfl⟩, rfl, rfl⟩,
      rfl, rfl⟩ := h
    refine ⟨_, ?_, rfl⟩
    simpa [Node.respell, startOf, Rule.label, keyTree] using Produces.patternField hk hc hx
  · obtain ⟨t, ht, rfl, rfl⟩ := h
    refine ⟨_, ?_, rfl⟩
    simpa [Node.respell, startOf, leaf_of_is ht, shorthandKeyTree, bindTree] using
      Produces.patternShorthand ht

theorem means_params (mem : alternative ∈ Rule.params.alternatives)
    (h : alternative.1.Holds Rule.Means w xs) :
    Rule.params.Means w (Rule.params.build alternative.2 w xs) := by
  simp only [Rule.alternatives, List.mem_cons, List.not_mem_nil, or_false] at mem
  subst mem
  obtain ⟨o, u, c, ho, items, hc, rfl⟩ := holds_between h
  refine ⟨_, ?_, rfl⟩
  have hitems := produces_list_of_holds (isPlain_of_ne (by decide)) items
  simpa [Node.respell, startOf, Rule.label] using Produces.params ho hitems hc

theorem means_key (mem : alternative ∈ Rule.key.alternatives)
    (h : alternative.1.Holds Rule.Means w xs) :
    Rule.key.Means w (Rule.key.build alternative.2 w xs) := by
  simp only [Rule.alternatives, List.mem_cons, List.not_mem_nil, or_false] at mem
  rcases mem with rfl | rfl
  · obtain ⟨t, ht, rfl, rfl⟩ := h
    refine ⟨t, Or.inl ht, rfl, ?_⟩
    simp [Rule.build, Rule.shape, Rule.label, startOf, keyTree, leaf_of_is ht]
  · obtain ⟨t, ht, rfl, rfl⟩ := h
    refine ⟨t, Or.inr ht, rfl, ?_⟩
    simp [Rule.build, Rule.shape, Rule.label, startOf, keyTree, leaf_of_is ht]

theorem means_singleParam (mem : alternative ∈ Rule.singleParam.alternatives)
    (h : alternative.1.Holds Rule.Means w xs) :
    Rule.singleParam.Means w (Rule.singleParam.build alternative.2 w xs) := by
  simp only [Rule.alternatives, List.mem_cons, List.not_mem_nil, or_false] at mem
  subst mem
  obtain ⟨t, ht, rfl, rfl⟩ := h
  refine ⟨t, ht, rfl, ?_⟩
  simp [Rule.build, Rule.shape, Rule.label, startOf, leaf_of_is ht]

/-! ## Expressions -/

theorem means_expression (mem : alternative ∈ Rule.expression.alternatives)
    (h : alternative.1.Holds Rule.Means w xs) :
    Rule.expression.Means w (Rule.expression.build alternative.2 w xs) := by
  simp only [Rule.alternatives, List.mem_cons, List.not_mem_nil, or_false] at mem
  rcases mem with rfl | rfl
  · obtain ⟨x, hx, rfl⟩ := h
    exact ⟨x, .expressionArrow hx, rfl⟩
  · obtain ⟨x, hx, rfl⟩ := h
    exact ⟨x, .expressionConditional hx, rfl⟩

/-- What stands behind an arrow. -/
theorem produces_body_of_holds
    (h : (Expansion.either (.rule .block) (.rule .expression)).Holds Rule.Means w xs) :
    ∃ x : Node, Produces .body w [x.normalize] ∧ xs = [x] := by
  rcases h with ⟨x, hx, rfl⟩ | ⟨x, hx, rfl⟩
  · exact ⟨x, .bodyBlock hx, rfl⟩
  · exact ⟨x, .bodyExpression hx, rfl⟩

theorem means_arrow (mem : alternative ∈ Rule.arrow.alternatives)
    (h : alternative.1.Holds Rule.Means w xs) :
    Rule.arrow.Means w (Rule.arrow.build alternative.2 w xs) := by
  simp only [Rule.alternatives, List.mem_cons, List.not_mem_nil, or_false] at mem
  subst mem
  obtain ⟨_, _, _, _, ps, ⟨_, _, _, _, ⟨a, ha, rfl, rfl⟩, body, rfl, rfl⟩, rfl, rfl⟩ := h
  obtain ⟨y, hy, rfl⟩ := produces_body_of_holds body
  -- A single parameter is respelled as a list of one.
  rcases ps with ⟨t, ht, rfl, rfl⟩ | ⟨x, hx, rfl⟩
  · refine ⟨_, ?_, rfl⟩
    simpa [Node.respell, startOf, Rule.label, bindTree] using Produces.arrowName ht ha hy
  · refine ⟨_, ?_, rfl⟩
    -- The label tells that the parameters are a list already and are kept as they are.
    obtain ⟨ns, hns⟩ := params_label hx
    simpa [Node.respell, Rule.label, hns] using Produces.arrowParams (hns ▸ hx) ha hy

theorem means_conditional (mem : alternative ∈ Rule.conditional.alternatives)
    (h : alternative.1.Holds Rule.Means w xs) :
    Rule.conditional.Means w (Rule.conditional.build alternative.2 w xs) := by
  simp only [Rule.alternatives, List.mem_cons, List.not_mem_nil, or_false] at mem
  rcases mem with rfl | rfl
  · obtain ⟨x, hx, rfl⟩ := h
    exact ⟨x, .conditionalOperand hx, rfl⟩
  · obtain ⟨_, _, _, _, ⟨x, hx, rfl⟩, ⟨_, _, _, _, ⟨q, hq, rfl, rfl⟩, ⟨_, _, _, _, ⟨y, hy, rfl⟩,
      ⟨_, _, _, _, ⟨c, hc, rfl, rfl⟩, ⟨z, hz, rfl⟩, rfl, rfl⟩, rfl, rfl⟩, rfl, rfl⟩, rfl, rfl⟩ := h
    refine ⟨_, ?_, rfl⟩
    simpa [Node.respell] using Produces.ternary hx hq hy hc hz

/-- The operators of a level and the leaves that they make. -/
theorem isOperator_of_holds {l : Level}
    (h : (Expansion.operators l).Holds Rule.Means w xs) :
    ∃ op : Token, op.IsOperator l ∧ w = [op] ∧ xs = operatorLeaves l op := by
  cases l with
  | or | and =>
      obtain ⟨t, ht, rfl, rfl⟩ := h
      exact ⟨t, ⟨by simp [Level.accepts, ht.1], ht.2⟩, rfl, rfl⟩
  -- From here on the label leaves open which operator it is, so the operator makes a leaf.
  | equality | relation | product =>
      obtain ⟨t, ht, rfl, rfl⟩ := h
      refine ⟨t, ⟨by simp [Level.accepts, ht.1], ht.2⟩, rfl, ?_⟩
      simp [operatorLeaves, leaf_of_is ht]
  | sum =>
      rcases h with ⟨t, ht, rfl, rfl⟩ | ⟨t, ht, rfl, rfl⟩
      · refine ⟨t, ⟨by simp [Level.accepts, ht.1], ht.2⟩, rfl, ?_⟩
        simp [operatorLeaves, leaf_of_is ht]
      · refine ⟨t, ⟨by simp [Level.accepts, ht.1], ht.2⟩, rfl, ?_⟩
        simp [operatorLeaves, leaf_of_is ht]

/-- The tree of an operation is not respelled. -/
theorem operationLabel_notMem (l : Level) :
    operationLabel l ∉ ["start", "arrow", "shorthand_field", "pattern_shorthand"] := by
  cases l <;> decide

theorem normalizeAll_operatorLeaves (l : Level) (op : Token) :
    Node.normalizeAll (operatorLeaves l op) = operatorLeaves l op := by
  cases l <;> simp [operatorLeaves]

theorem isPlain_operand (l : Level) : (Rule.operand l).IsPlain := by
  cases l <;> exact isPlain_of_ne (by decide)

theorem means_level {l : Level} (mem : alternative ∈ (Rule.level l).alternatives)
    (h : alternative.1.Holds Rule.Means w xs) :
    (Rule.level l).Means w ((Rule.level l).build alternative.2 w xs) := by
  simp only [Rule.alternatives, List.mem_cons, List.not_mem_nil, or_false] at mem
  rcases mem with rfl | rfl
  · obtain ⟨x, hx, rfl⟩ := (isPlain_operand l _ _).1 h
    exact ⟨x, .levelOperand hx, rfl⟩
  · obtain ⟨u, _, _, _, ⟨x, hx, rfl⟩, ⟨_, _, v, _, op, right, rfl, rfl⟩, rfl, rfl⟩ := h
    obtain ⟨op, hop, rfl, rfl⟩ := isOperator_of_holds op
    obtain ⟨y, hy, rfl⟩ := (isPlain_operand l _ _).1 right
    refine ⟨_, ?_, rfl⟩
    have hlabel := operationLabel_notMem l
    simpa [Node.respell_of_ne _ _ hlabel, normalizeAll_operatorLeaves] using
      Produces.operation hx hop hy

theorem means_unary (mem : alternative ∈ Rule.unary.alternatives)
    (h : alternative.1.Holds Rule.Means w xs) :
    Rule.unary.Means w (Rule.unary.build alternative.2 w xs) := by
  simp only [Rule.alternatives, List.mem_cons, List.not_mem_nil, or_false] at mem
  rcases mem with rfl | rfl
  · obtain ⟨x, hx, rfl⟩ := h
    exact ⟨x, .unarySuffixed hx, rfl⟩
  · obtain ⟨_, _, _, _, op, ⟨x, hx, rfl⟩, rfl, rfl⟩ := h
    rcases op with ⟨t, ht, rfl, rfl⟩ | ⟨t, ht, rfl, rfl⟩
    · refine ⟨_, ?_, rfl⟩
      simpa [Node.respell, startOf, leaf_of_is ht] using Produces.unaryOperation (Or.inl ht) hx
    · refine ⟨_, ?_, rfl⟩
      simpa [Node.respell, startOf, leaf_of_is ht] using Produces.unaryOperation (Or.inr ht) hx

theorem means_suffixed (mem : alternative ∈ Rule.suffixed.alternatives)
    (h : alternative.1.Holds Rule.Means w xs) :
    Rule.suffixed.Means w (Rule.suffixed.build alternative.2 w xs) := by
  simp only [Rule.alternatives, List.mem_cons, List.not_mem_nil, or_false] at mem
  rcases mem with rfl | rfl | rfl | rfl
  · obtain ⟨x, hx, rfl⟩ := h
    exact ⟨x, .suffixedPrimary hx, rfl⟩
  · obtain ⟨_, _, _, _, ⟨x, hx, rfl⟩, others, rfl, rfl⟩ := h
    obtain ⟨o, u, c, ho, items, hc, rfl⟩ := holds_between others
    refine ⟨_, ?_, rfl⟩
    have hitems := produces_list_of_holds (isPlain_of_ne (by decide)) items
    simpa [Node.respell] using Produces.call hx ho hitems hc
  · obtain ⟨_, _, _, _, ⟨x, hx, rfl⟩, ⟨_, _, _, _, ⟨o, ho, rfl, rfl⟩, ⟨t, ht, rfl, rfl⟩, rfl, rfl⟩,
      rfl, rfl⟩ := h
    refine ⟨_, ?_, rfl⟩
    simpa [Node.respell, leaf_of_is ht] using Produces.member hx ho ht
  · obtain ⟨_, _, _, _, ⟨x, hx, rfl⟩, others, rfl, rfl⟩ := h
    obtain ⟨o, u, c, ho, ⟨y, hy, rfl⟩, hc, rfl⟩ := holds_between others
    refine ⟨_, ?_, rfl⟩
    simpa [Node.respell] using Produces.index hx ho hy hc

theorem means_primary (mem : alternative ∈ Rule.primary.alternatives)
    (h : alternative.1.Holds Rule.Means w xs) :
    Rule.primary.Means w (Rule.primary.build alternative.2 w xs) := by
  simp only [Rule.alternatives, List.mem_cons, List.not_mem_nil, or_false] at mem
  rcases mem with rfl | rfl | rfl | rfl | rfl | rfl | rfl | rfl | rfl
  · obtain ⟨t, ht, rfl, rfl⟩ := h
    refine ⟨_, ?_, rfl⟩
    simpa [Node.respell, startOf, leaf_of_is ht] using Produces.number ht
  · obtain ⟨t, ht, rfl, rfl⟩ := h
    refine ⟨_, ?_, rfl⟩
    simpa [Node.respell, startOf, leaf_of_is ht] using Produces.string ht
  · obtain ⟨t, ht, rfl, rfl⟩ := h
    refine ⟨_, ?_, rfl⟩
    simpa [Node.respell, startOf] using Produces.trueWord ht
  · obtain ⟨t, ht, rfl, rfl⟩ := h
    refine ⟨_, ?_, rfl⟩
    simpa [Node.respell, startOf] using Produces.falseWord ht
  · obtain ⟨t, ht, rfl, rfl⟩ := h
    refine ⟨_, ?_, rfl⟩
    simpa [Node.respell, startOf, leaf_of_is ht, referenceTree] using Produces.reference ht
  · obtain ⟨x, hx, rfl⟩ := h
    exact ⟨x, .primaryArray hx, rfl⟩
  · obtain ⟨x, hx, rfl⟩ := h
    exact ⟨x, .primaryObject hx, rfl⟩
  · obtain ⟨_, _, _, _, ⟨t, ht, rfl, rfl⟩, ⟨_, _, _, _, ⟨x, hx, rfl⟩, ⟨y, hy, rfl⟩, rfl, rfl⟩, rfl,
      rfl⟩ := h
    refine ⟨_, ?_, rfl⟩
    simpa [Node.respell, startOf] using Produces.functionExpression ht hx hy
  -- Parentheses make no tree: the expression between them is the only child.
  · obtain ⟨o, u, c, ho, ⟨x, hx, rfl⟩, hc, rfl⟩ := holds_between h
    exact ⟨x, .parenthesized ho hx hc, rfl⟩

theorem means_array (mem : alternative ∈ Rule.array.alternatives)
    (h : alternative.1.Holds Rule.Means w xs) :
    Rule.array.Means w (Rule.array.build alternative.2 w xs) := by
  simp only [Rule.alternatives, List.mem_cons, List.not_mem_nil, or_false] at mem
  subst mem
  obtain ⟨o, u, c, ho, items, hc, rfl⟩ := holds_between h
  refine ⟨_, ?_, rfl⟩
  have hitems := produces_list_of_holds (isPlain_of_ne (by decide)) items
  simpa [Node.respell, startOf, Rule.label] using Produces.array ho hitems hc

theorem means_object (mem : alternative ∈ Rule.object.alternatives)
    (h : alternative.1.Holds Rule.Means w xs) :
    Rule.object.Means w (Rule.object.build alternative.2 w xs) := by
  simp only [Rule.alternatives, List.mem_cons, List.not_mem_nil, or_false] at mem
  subst mem
  obtain ⟨o, u, c, ho, items, hc, rfl⟩ := holds_between h
  refine ⟨_, ?_, rfl⟩
  have hitems := produces_list_of_holds (isPlain_of_ne (by decide)) items
  simpa [Node.respell, startOf, Rule.label] using Produces.object ho hitems hc

theorem means_field (mem : alternative ∈ Rule.field.alternatives)
    (h : alternative.1.Holds Rule.Means w xs) :
    Rule.field.Means w (Rule.field.build alternative.2 w xs) := by
  simp only [Rule.alternatives, List.mem_cons, List.not_mem_nil, or_false] at mem
  rcases mem with rfl | rfl
  · obtain ⟨_, _, _, _, ⟨k, hk, rfl, rfl⟩, ⟨_, _, _, _, ⟨c, hc, rfl, rfl⟩, ⟨x, hx, rfl⟩, rfl, rfl⟩,
      rfl, rfl⟩ := h
    refine ⟨_, ?_, rfl⟩
    simpa [Node.respell, startOf, Rule.label, keyTree] using Produces.field hk hc hx
  · obtain ⟨t, ht, rfl, rfl⟩ := h
    refine ⟨_, ?_, rfl⟩
    simpa [Node.respell, startOf, leaf_of_is ht, shorthandKeyTree, referenceTree] using
      Produces.fieldShorthand ht

/-! ## Statements -/

theorem means_start (mem : alternative ∈ Rule.start.alternatives)
    (h : alternative.1.Holds Rule.Means w xs) :
    Rule.start.Means w (Rule.start.build alternative.2 w xs) := by
  simp only [Rule.alternatives, List.mem_cons, List.not_mem_nil, or_false] at mem
  subst mem
  refine ⟨_, ?_, rfl⟩
  simpa [Node.respell, Rule.label] using Produces.start (produces_statements_of_holds h)

theorem means_terminated (mem : alternative ∈ Rule.terminated.alternatives)
    (h : alternative.1.Holds Rule.Means w xs) :
    Rule.terminated.Means w (Rule.terminated.build alternative.2 w xs) := by
  simp only [Rule.alternatives, List.mem_cons, List.not_mem_nil, or_false] at mem
  rcases mem with rfl | rfl | rfl
  · obtain ⟨u, _, _, _, ⟨x, hx, rfl⟩, ⟨s, hs, rfl, rfl⟩, rfl, rfl⟩ := h
    exact Or.inr (Or.inl ⟨u, s, x, hx, hs, rfl, rfl⟩)
  · obtain ⟨x, hx, rfl⟩ := h
    exact Or.inr (Or.inr ⟨x, hx, rfl⟩)
  · obtain ⟨s, hs, rfl, rfl⟩ := h
    exact Or.inl ⟨s, hs, rfl, rfl⟩

theorem means_simpleStatement (mem : alternative ∈ Rule.simpleStatement.alternatives)
    (h : alternative.1.Holds Rule.Means w xs) :
    Rule.simpleStatement.Means w (Rule.simpleStatement.build alternative.2 w xs) := by
  simp only [Rule.alternatives, List.mem_cons, List.not_mem_nil, or_false] at mem
  rcases mem with rfl | rfl | rfl | rfl
  · obtain ⟨x, hx, rfl⟩ := h
    exact ⟨x, .simpleDeclaration hx, rfl⟩
  · obtain ⟨x, hx, rfl⟩ := h
    exact ⟨x, .simpleReturn hx, rfl⟩
  · obtain ⟨x, hx, rfl⟩ := h
    exact ⟨x, .simpleThrow hx, rfl⟩
  · obtain ⟨x, hx, rfl⟩ := h
    refine ⟨_, ?_, rfl⟩
    simpa [Node.respell] using Produces.expressionStatement hx

theorem means_compoundStatement (mem : alternative ∈ Rule.compoundStatement.alternatives)
    (h : alternative.1.Holds Rule.Means w xs) :
    Rule.compoundStatement.Means w (Rule.compoundStatement.build alternative.2 w xs) := by
  simp only [Rule.alternatives, List.mem_cons, List.not_mem_nil, or_false] at mem
  rcases mem with rfl | rfl
  · obtain ⟨x, hx, rfl⟩ := h
    exact ⟨x, .compoundFunction hx, rfl⟩
  · obtain ⟨x, hx, rfl⟩ := h
    exact ⟨x, .compoundIf hx, rfl⟩

theorem isDeclarator_of_holds
    (h : (Expansion.either (Expansion.word .constWord)
      (.either (Expansion.word .letWord) (Expansion.word .varWord))).Holds Rule.Means w xs) :
    ∃ t : Token, t.IsDeclarator ∧ w = [t] ∧ xs = [] := by
  rcases h with ⟨t, ht, rfl, rfl⟩ | ⟨t, ht, rfl, rfl⟩ | ⟨t, ht, rfl, rfl⟩
  · exact ⟨t, Or.inl ht, rfl, rfl⟩
  · exact ⟨t, Or.inr (Or.inl ht), rfl, rfl⟩
  · exact ⟨t, Or.inr (Or.inr ht), rfl, rfl⟩

theorem means_declaration (mem : alternative ∈ Rule.declaration.alternatives)
    (h : alternative.1.Holds Rule.Means w xs) :
    Rule.declaration.Means w (Rule.declaration.build alternative.2 w xs) := by
  simp only [Rule.alternatives, List.mem_cons, List.not_mem_nil, or_false] at mem
  subst mem
  obtain ⟨_, _, _, _, words, ⟨_, _, _, _, ⟨x, hx, rfl⟩, ⟨_, _, _, _, ⟨o, ho, rfl, rfl⟩,
    ⟨y, hy, rfl⟩, rfl, rfl⟩, rfl, rfl⟩, rfl, rfl⟩ := h
  obtain ⟨t, ht, rfl, rfl⟩ := isDeclarator_of_holds words
  refine ⟨_, ?_, rfl⟩
  simpa [Node.respell, startOf, Rule.label] using Produces.declaration ht hx ho hy

theorem means_returnStatement (mem : alternative ∈ Rule.returnStatement.alternatives)
    (h : alternative.1.Holds Rule.Means w xs) :
    Rule.returnStatement.Means w (Rule.returnStatement.build alternative.2 w xs) := by
  simp only [Rule.alternatives, List.mem_cons, List.not_mem_nil, or_false] at mem
  subst mem
  obtain ⟨_, _, _, _, ⟨t, ht, rfl, rfl⟩, value, rfl, rfl⟩ := h
  rcases value with ⟨rfl, rfl⟩ | ⟨x, hx, rfl⟩
  · refine ⟨_, ?_, rfl⟩
    simpa [Node.respell, startOf, Rule.label] using Produces.returnNothing ht
  · refine ⟨_, ?_, rfl⟩
    simpa [Node.respell, startOf, Rule.label] using Produces.returnValue ht hx

theorem means_throwStatement (mem : alternative ∈ Rule.throwStatement.alternatives)
    (h : alternative.1.Holds Rule.Means w xs) :
    Rule.throwStatement.Means w (Rule.throwStatement.build alternative.2 w xs) := by
  simp only [Rule.alternatives, List.mem_cons, List.not_mem_nil, or_false] at mem
  subst mem
  obtain ⟨_, _, _, _, ⟨t, ht, rfl, rfl⟩, ⟨x, hx, rfl⟩, rfl, rfl⟩ := h
  refine ⟨_, ?_, rfl⟩
  simpa [Node.respell, startOf, Rule.label] using Produces.throwValue ht hx

theorem means_functionDeclaration (mem : alternative ∈ Rule.functionDeclaration.alternatives)
    (h : alternative.1.Holds Rule.Means w xs) :
    Rule.functionDeclaration.Means w (Rule.functionDeclaration.build alternative.2 w xs) := by
  simp only [Rule.alternatives, List.mem_cons, List.not_mem_nil, or_false] at mem
  subst mem
  obtain ⟨_, _, _, _, ⟨t, ht, rfl, rfl⟩, ⟨_, _, _, _, ⟨k, hk, rfl, rfl⟩, ⟨_, _, _, _,
    ⟨x, hx, rfl⟩, ⟨y, hy, rfl⟩, rfl, rfl⟩, rfl, rfl⟩, rfl, rfl⟩ := h
  refine ⟨_, ?_, rfl⟩
  simpa [Node.respell, startOf, Rule.label, leaf_of_is hk] using
    Produces.functionDeclaration ht hk hx hy

theorem means_ifStatement (mem : alternative ∈ Rule.ifStatement.alternatives)
    (h : alternative.1.Holds Rule.Means w xs) :
    Rule.ifStatement.Means w (Rule.ifStatement.build alternative.2 w xs) := by
  simp only [Rule.alternatives, List.mem_cons, List.not_mem_nil, or_false] at mem
  subst mem
  obtain ⟨_, _, _, _, ⟨t, ht, rfl, rfl⟩, ⟨_, _, _, _, ⟨o, ho, rfl, rfl⟩, ⟨_, _, _, _,
    ⟨x, hx, rfl⟩, ⟨_, _, _, _, ⟨c, hc, rfl, rfl⟩, ⟨_, _, _, _, ⟨y, hy, rfl⟩, other, rfl, rfl⟩,
    rfl, rfl⟩, rfl, rfl⟩, rfl, rfl⟩, rfl, rfl⟩ := h
  -- Without `else` the optional part derives nothing; with it, a block or another condition.
  rcases other with ⟨rfl, rfl⟩ | ⟨_, _, _, _, ⟨q, hq, rfl, rfl⟩, ⟨z, hz, rfl⟩ | ⟨z, hz, rfl⟩, rfl,
    rfl⟩
  · refine ⟨_, ?_, rfl⟩
    simpa [Node.respell, startOf, Rule.label] using Produces.ifThen ht ho hx hc hy
  · refine ⟨_, ?_, rfl⟩
    simpa [Node.respell, startOf, Rule.label] using Produces.ifElse ht ho hx hc hy hq hz
  · refine ⟨_, ?_, rfl⟩
    simpa [Node.respell, startOf, Rule.label] using Produces.ifElseIf ht ho hx hc hy hq hz

theorem means_block (mem : alternative ∈ Rule.block.alternatives)
    (h : alternative.1.Holds Rule.Means w xs) :
    Rule.block.Means w (Rule.block.build alternative.2 w xs) := by
  simp only [Rule.alternatives, List.mem_cons, List.not_mem_nil, or_false] at mem
  subst mem
  obtain ⟨o, u, c, ho, items, hc, rfl⟩ := holds_between h
  refine ⟨_, ?_, rfl⟩
  simpa [Node.respell, startOf, Rule.label] using
    Produces.block ho (produces_statements_of_holds items) hc

end

/-- What an alternative derives is what the productions say about its rule. -/
theorem means_build {r : Rule} {alternative : Expansion × Option String} {w : List Token}
    {xs : List Node} (mem : alternative ∈ r.alternatives)
    (h : alternative.1.Holds Rule.Means w xs) : r.Means w (r.build alternative.2 w xs) := by
  cases r with
  | start => exact means_start mem h
  | terminated => exact means_terminated mem h
  | simpleStatement => exact means_simpleStatement mem h
  | compoundStatement => exact means_compoundStatement mem h
  | declaration => exact means_declaration mem h
  | returnStatement => exact means_returnStatement mem h
  | throwStatement => exact means_throwStatement mem h
  | functionDeclaration => exact means_functionDeclaration mem h
  | ifStatement => exact means_ifStatement mem h
  | block => exact means_block mem h
  | params => exact means_params mem h
  | pattern => exact means_pattern mem h
  | patternField => exact means_patternField mem h
  | expression => exact means_expression mem h
  | arrow => exact means_arrow mem h
  | singleParam => exact means_singleParam mem h
  | conditional => exact means_conditional mem h
  | level l => exact means_level mem h
  | unary => exact means_unary mem h
  | suffixed => exact means_suffixed mem h
  | primary => exact means_primary mem h
  | array => exact means_array mem h
  | object => exact means_object mem h
  | field => exact means_field mem h
  | key => exact means_key mem h

theorem holds_of_derives {e : Expansion} {w : List Token} {xs : List Node} (h : Derives e w xs) :
    e.Holds Rule.Means w xs := by
  -- By induction on the derivation, in which the rules below this one have productions already.
  induction h with
  | empty => exact ⟨rfl, rfl⟩
  | mark ht => exact ⟨_, ht, rfl, rfl⟩
  | terminal ht => exact ⟨_, ht, rfl, rfl⟩
  | rule mem _ ih => exact means_build mem ih
  | seq _ _ ihFirst ihSecond => exact ⟨_, _, _, _, ihFirst, ihSecond, rfl, rfl⟩
  | eitherFirst _ ih => exact Or.inl ih
  | eitherSecond _ ih => exact Or.inr ih
  | optionalNone => exact Or.inl ⟨rfl, rfl⟩
  | optionalSome _ ih => exact Or.inr ih
  | manyNone => exact .nil
  | manyMore _ _ ihFirst ihOthers => exact .cons ihFirst ihOthers

end VariantScript.Syntax.Grammar
