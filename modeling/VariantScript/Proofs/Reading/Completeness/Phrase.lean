import VariantScript.Proofs.Reading.Completeness.Operand

/-!
# Finding expressions and statements

An expression that starts with a parenthesis is found although it could start with parameters, since
no arrow stands behind them.  A statement is found up to what ends it.
-/

namespace VariantScript.Syntax

open Grammar

namespace Phrase

open Outcome

/-! ## Expressions -/

theorem finds_conditionalOperand {w : List Token} {x : Node} (h : FindsLevel .or w [x]) :
    FindsConditional w [x] := by
  obtain ⟨e, he, hread⟩ := h
  refine Finds.intro e rfl he fun rest hrest hstops => ?_
  have hgrip := hstops.grip
  have hchain : (chain .or (w ++ rest)).outcome = (chainRest .or (startOf w) e rest).outcome :=
    hread rest hrest (by omega)
  rw [outcome_conditional, hchain, chainRest_stop _ _ (by simp [hgrip, Level.grip])]
  cases rest with
  | nil => rfl
  | cons q rest =>
      have hq : q.kind ≠ .qmark := fun hk => by simp [headGrip, hk, TokenKind.grip] at hgrip
      simp [conditionalRest, hq]

theorem finds_ternary {c q : Token} {u v w : List Token} {x y z : Node}
    (hu : Produces (.one (.level .or)) u [x]) (hv : Genuine v) (hw : Genuine w)
    (condition : FindsLevel .or u [x]) (hq : q.Is .qmark) (yes : FindsExpression v [y])
    (hc : c.Is .colon) (no : FindsExpression w [z]) :
    FindsConditional (u ++ q :: (v ++ c :: w))
      [.tree "ternary" (startOf (u ++ q :: (v ++ c :: w))) [x, y, z]] := by
  obtain ⟨e, he, hcondition⟩ := condition
  obtain ⟨f, hf, hyes⟩ := yes
  obtain ⟨g, hg, hno⟩ := no
  have hne := nonempty_of_produces hu trivial
  refine Finds.intro (.node (startOf u) (.conditional e f g)) ?_ (.under (.triple he hf hg))
    fun rest hrest hstops => ?_
  · rw [Term.toNode, Form.toNode, startOf_append _ hne]
  · have hother : Genuine (c :: (w ++ rest)) := by
      simp [hc.2, hw, hrest]
    have hbehind : Genuine (q :: (v ++ c :: (w ++ rest))) := by
      simpa [hq.2, hv] using hother
    have hchain : (chain .or (u ++ q :: (v ++ c :: (w ++ rest)))).outcome =
        (chainRest .or (startOf u) e (q :: (v ++ c :: (w ++ rest)))).outcome :=
      hcondition _ hbehind (by simp [headGrip, hq.1, TokenKind.grip, Level.grip])
    have hsecond : (expression (v ++ c :: (w ++ rest))).outcome = .ok (f, c :: (w ++ rest)) :=
      hyes _ hother (stops_cons (by simp [hc.1]))
    have hthird : (expression (w ++ rest)).outcome = .ok (g, rest) := hno rest hrest hstops
    have happend : u ++ q :: (v ++ c :: w) ++ rest = u ++ q :: (v ++ c :: (w ++ rest)) := by simp
    rw [happend, outcome_conditional, hchain,
      chainRest_stop _ _ (by simp [headGrip, hq.1, TokenKind.grip, Level.grip]),
      startOf_append _ hne]
    simp [conditionalRest, hq.1, hsecond, token, hc.1, hthird]

/-- A primary that starts with a parenthesis closes it. -/
theorem primary_parenthesis {o : Token} {v : List Token} {ns : List Node}
    (h : Produces (.one .primary) (o :: v) ns) (ho : o.kind = .lpar) :
    ∃ inside c, v = inside ++ [c] ∧ Balanced inside ∧ c.kind = .rpar := by
  cases h with
  | parenthesized _ h hc => exact ⟨_, _, rfl, balanced_of_produces h, hc.1⟩
  | number h | string h | trueWord h | falseWord h | reference h | functionExpression h =>
      simp [h.1] at ho
  | primaryArray h =>
      cases h with
      | array h => simp [h.1] at ho
  | primaryObject h =>
      cases h with
      | object h => simp [h.1] at ho

/-- Parameters at the head of tokens that start with an operand end within it: both close the first
parenthesis at the same place.  What stands behind them goes on an operand. -/
theorem behind_params {w rest u behind : List Token} {o : Token} {x y : Node}
    (hw : Produces (.one .conditional) w [x]) (ho : w.head? = some o) (hkind : o.kind = .lpar)
    (hu : Produces (.one .params) u [y]) (hread : w ++ rest = u ++ behind) :
    ∃ more, behind = more ++ rest ∧ ∀ t ∈ more.head?, continuesOperand t = true := by
  rcases operand_of_produces hw trivial with ⟨op, v, rfl, hop⟩ | ⟨v, more, m, rfl, hm, -, hmore⟩
  · obtain rfl : op = o := by simpa using ho
    rcases hop with hop | hop <;> simp [hop.1] at hkind
  -- A primary closes its first parenthesis, and so do parameters; both do so at the same token.
  · obtain ⟨o', v, rfl⟩ := List.exists_cons_of_ne_nil (nonempty_of_produces hm trivial)
    obtain rfl : o' = o := by simpa using ho
    obtain ⟨inside, c, rfl, hinside, hc⟩ := primary_parenthesis hm hkind
    cases hu with
    | params ho' items hc' =>
        simp only [List.cons_append, List.append_assoc, List.nil_append, List.cons.injEq] at hread
        obtain ⟨-, -, hbehind⟩ := hinside.eq_of_append_eq (balanced_of_produces items)
          (by rw [hc]; rfl) (by rw [hc'.1]; rfl) hread.2
        exact ⟨more, hbehind.symm, hmore⟩

/-- Tokens that start with an operand do not start with parameters and an arrow. -/
theorem not_arrow_of_conditional {w rest u behind : List Token} {o a : Token} {x y : Node}
    (hw : Produces (.one .conditional) w [x]) (hrest : Stops rest) (ho : w.head? = some o)
    (hkind : o.kind = .lpar) (hu : Produces (.one .params) u [y])
    (hread : w ++ rest = u ++ a :: behind) : a.kind ≠ .arrow := by
  intro ha
  obtain ⟨more, hbehind, hmore⟩ := behind_params hw ho hkind hu hread
  cases more with
  | nil => exact hrest a (by simp [← show a :: behind = rest from hbehind]) (Or.inr ha)
  | cons b more =>
      obtain ⟨rfl, -⟩ := List.cons.inj hbehind
      have hcontinues := hmore a rfl
      simp [continuesOperand, ha] at hcontinues

theorem finds_expressionConditional {w : List Token} {x : Node}
    (hw : Produces (.one .conditional) w [x]) (h : FindsConditional w [x]) :
    FindsExpression w [x] := by
  obtain ⟨e, he, hread⟩ := h
  refine Finds.intro e rfl he fun rest hrest hstops => ?_
  have hconditional : (conditional (w ++ rest)).outcome = .ok (e, rest) := hread rest hrest hstops
  have hparams := sound_params (genuine_append.2 ⟨genuine_of_produces hw, hrest⟩)
  obtain ⟨t, v, rfl, -, hsecond, -⟩ := leads_of_operand hw trivial
  -- The reader looks for an arrow in two places: behind parameters and behind a first name.
  have hnoArrow {u behind : List Token} {a : Token} {y : Node} (hkind : t.kind = .lpar)
      (hu : Produces (.one .params) u [y]) (happend : t :: v ++ rest = u ++ a :: behind) :
      a.kind ≠ .arrow := not_arrow_of_conditional hw hstops rfl hkind hu happend
  have hnext (hkind : t.kind = .name) : ∀ u ∈ (v ++ rest).head?, u.kind ≠ .arrow := by
    intro u hu harrow
    cases v with
    | nil => exact hstops u hu (Or.inr harrow)
    | cons b v =>
        have hcontinues := hsecond (Or.inl hkind) u (by simpa using hu)
        simp [continuesOperand, harrow] at hcontinues
  rw [List.cons_append] at hconditional hparams hnoArrow ⊢
  generalize v ++ rest = ts at *
  rw [outcome_expression]
  cases ts with
  | nil => exact hconditional
  | cons u more =>
      dsimp only
      rw [if_neg fun hk => hnext hk.1 u rfl hk.2, hconditional]
      split
      · rename_i hkind
        cases hps : (params (t :: u :: more)).outcome with
        | error behind => rfl
        | ok p =>
            obtain ⟨ps, behind⟩ := p
            rw [hps] at hparams
            obtain ⟨w', happend, hw'⟩ := hparams
            cases behind with
            | nil => rfl
            | cons a behind =>
                simp only [parenthesisStep, if_neg (hnoArrow hkind hw' happend)]
                rfl
      · rfl

theorem finds_arrowName {a t : Token} {w : List Token} {x : Node} (ht : t.Is .name)
    (ha : a.Is .arrow) (body : FindsBody w [x]) :
    FindsExpression (t :: a :: w)
      [.tree "arrow" (some t.pos) [.tree "params" (some t.pos) [bindTree t], x]] := by
  obtain ⟨e, he, hread⟩ := body
  have htree : (Term.node (some t.pos) (.arrow ⟨some t.pos, [bindName t]⟩ e)).toNode =
      .tree "arrow" (some t.pos) [.tree "params" (some t.pos) [bindTree t], e.toNode] := by
    simp [Term.toNode, Form.toNode, Params.toNode, toNodes_pattern, toNode_bindName ht.1]
  refine Finds.intro (.node (some t.pos) (.arrow ⟨some t.pos, [bindName t]⟩ e)) (by rw [htree]) ?_
    fun rest hrest hstops => ?_
  -- The body is the only place where the tree that is read may have a block against a record.
  · rcases he with he | ⟨n, hn, hboth⟩
    · exact .under (.pair (.refl _) he)
    · obtain rfl : x = n := by simpa using hn
      exact .body (.refl _) hboth .nil
  · have hw : (arrowBody (w ++ rest)).outcome = .ok (e, rest) := hread rest hrest hstops
    rw [List.cons_append, List.cons_append, outcome_expression]
    simp [ht.1, ha.1, hw]

/-- Reading an arrow behind parameters. -/
theorem outcome_expression_params {o a : Token} {ts behind : List Token} {ps : Params}
    (ho : o.kind = .lpar) (hps : (params (o :: ts)).outcome = .ok (ps, a :: behind))
    (ha : a.kind = .arrow) :
    (expression (o :: ts)).outcome =
      (arrowBody behind).outcome.map fun body => .node (some o.pos) (.arrow ps body) := by
  cases ts with
  | nil =>
      have hlt := Reply.length_lt_of_outcome hps
      simp at hlt
  | cons u ts =>
      rw [outcome_expression]
      simp [parenthesisStep, ho, hps, ha]

theorem finds_arrowParams {a : Token} {u w : List Token} {x y : Node}
    (hu : Produces (.one .params) u [x]) (ha : a.Is .arrow) (hw : Genuine w)
    (ps : FindsParams u [x]) (body : FindsBody w [y]) :
    FindsExpression (u ++ a :: w) [.tree "arrow" (startOf (u ++ a :: w)) [x, y]] := by
  obtain ⟨p, hp, hparams⟩ := ps
  obtain ⟨e, he, hread⟩ := body
  obtain ⟨o, v, rfl, ho⟩ : ∃ o v, u = o :: v ∧ o.kind = .lpar := by
    cases hu with
    | params ho => exact ⟨_, _, rfl, ho.1⟩
  refine Finds.intro (.node (some o.pos) (.arrow p e)) (by rw [Term.toNode, Form.toNode]) ?_
    fun rest hrest hstops => ?_
  · rcases he with he | ⟨n, hn, hboth⟩
    · exact .under (.pair hp he)
    · obtain rfl : y = n := by simpa using hn
      exact .body hp hboth .nil
  · have hps : (params (o :: (v ++ a :: (w ++ rest)))).outcome = .ok (p, a :: (w ++ rest)) :=
      hparams _ (by simp [ha.2, hw, hrest]) trivial
    have hbody : (arrowBody (w ++ rest)).outcome = .ok (e, rest) := hread rest hrest hstops
    have happend : o :: v ++ a :: w ++ rest = o :: (v ++ a :: (w ++ rest)) := by simp
    rw [happend, outcome_expression_params ho hps ha.1, hbody]
    rfl

/-! ## Statements -/

theorem finds_expressionStatement {w : List Token} {x : Node}
    (hw : Produces (.one .expression) w [x]) (h : FindsExpression w [x]) :
    FindsStatement w [.tree "expr_stmt" (startOf w) [x]] := by
  obtain ⟨e, he, hread⟩ := h
  obtain ⟨t, v, rfl, ht, -⟩ := leads_of_expression hw
  refine Finds.intro (.node (some t.pos) (.expressionStatement e))
    (by rw [Term.toNode, Form.toNode]; rfl) (.under he) fun rest hrest hends => ?_
  have hexpression : (expression (t :: (v ++ rest))).outcome = .ok (e, rest) :=
    hread rest hrest (stops_of_endsStatement hends)
  rw [List.cons_append, outcome_simpleStatement]
  dsimp only
  split
  · rename_i hk
    simp [hk, TokenKind.startsExpression] at ht
  · rename_i hk
    simp [hk, TokenKind.startsExpression] at ht
  · rename_i hk
    simp [hk, TokenKind.startsExpression] at ht
  · rename_i hk
    simp [hk, TokenKind.startsExpression] at ht
  · rename_i hk
    simp [hk, TokenKind.startsExpression] at ht
  · rw [hexpression]
    rfl

theorem finds_declaration {o t : Token} {u v : List Token} {x y : Node} (ht : t.IsDeclarator)
    (ho : o.Is .equal) (hv : Genuine v) (first : FindsPattern u [x])
    (value : FindsExpression v [y]) :
    FindsStatement (t :: (u ++ o :: v)) [.tree "declaration" (some t.pos) [x, y]] := by
  obtain ⟨p, hp, hpattern⟩ := first
  obtain ⟨e, he, hexpression⟩ := value
  refine Finds.intro (.node (some t.pos) (.declaration p e)) (by rw [Term.toNode, Form.toNode])
    (.under (.pair hp he)) fun rest hrest hends => ?_
  have hu : (pattern (u ++ o :: (v ++ rest))).outcome = .ok (p, o :: (v ++ rest)) :=
    hpattern _ (by simp [ho.2, hv, hrest]) trivial
  have hw : (expression (v ++ rest)).outcome = .ok (e, rest) :=
    hexpression rest hrest (stops_of_endsStatement hends)
  have happend : t :: (u ++ o :: v) ++ rest = t :: (u ++ o :: (v ++ rest)) := by simp
  rw [happend, outcome_simpleStatement]
  rcases ht with ht | ht | ht <;> simp [ht.1, hu, token, ho.1, hw]

theorem finds_returnNothing {t : Token} (ht : t.Is (.keyword .returnWord)) :
    FindsStatement [t] [.tree "return_stmt" (some t.pos) []] := by
  refine Finds.intro (.node (some t.pos) .returnNothing) (by rw [Term.toNode, Form.toNode])
    (.refl _) fun rest _ hends => ?_
  rw [List.singleton_append, outcome_simpleStatement]
  simp [ht.1, hends]

theorem finds_returnValue {t : Token} {w : List Token} {x : Node}
    (ht : t.Is (.keyword .returnWord)) (hw : Produces (.one .expression) w [x])
    (value : FindsExpression w [x]) :
    FindsStatement (t :: w) [.tree "return_stmt" (some t.pos) [x]] := by
  obtain ⟨e, he, hread⟩ := value
  obtain ⟨b, v, rfl, hb, -⟩ := leads_of_expression hw
  refine Finds.intro (.node (some t.pos) (.returnValue e)) (by rw [Term.toNode, Form.toNode])
    (.under he) fun rest hrest hends => ?_
  have hexpression : (expression (b :: (v ++ rest))).outcome = .ok (e, rest) :=
    hread rest hrest (stops_of_endsStatement hends)
  have hvalue : endsStatement (b :: (v ++ rest)) = false := by
    cases hk : b.kind <;> simp_all [endsStatement, TokenKind.startsExpression]
  rw [List.cons_append, List.cons_append, outcome_simpleStatement]
  simp [ht.1, hvalue, hexpression]

theorem finds_throwValue {t : Token} {w : List Token} {x : Node}
    (ht : t.Is (.keyword .throwWord)) (value : FindsExpression w [x]) :
    FindsStatement (t :: w) [.tree "throw_stmt" (some t.pos) [x]] := by
  obtain ⟨e, he, hread⟩ := value
  refine Finds.intro (.node (some t.pos) (.throwValue e)) (by rw [Term.toNode, Form.toNode])
    (.under he) fun rest hrest hends => ?_
  have hw : (expression (w ++ rest)).outcome = .ok (e, rest) :=
    hread rest hrest (stops_of_endsStatement hends)
  rw [List.cons_append, outcome_simpleStatement]
  simp [ht.1, hw]

/-- A statement that is no compound is read as one. -/
theorem outcome_statements_simple {w rest : List Token} {ns : List Node}
    (hw : Produces (.one .simpleStatement) w ns) :
    (statements (w ++ rest)).outcome =
      (simpleStatement (w ++ rest)).outcome.andThen statementsRest := by
  obtain ⟨t, v, rfl, hsemicolon, hrbrace, hif, hfunction⟩ : ∃ t v, w = t :: v ∧
      t.kind ≠ .semicolon ∧ t.kind ≠ .rbrace ∧ t.kind ≠ .keyword .ifWord ∧
      ¬ (t.kind = .keyword .functionWord ∧ namesFunction (v ++ rest)) := by
    -- The reader tells statements apart by their first token, and functions also by the second one.
    rcases lead_of_simpleStatement hw with ⟨word, hword, t, v, rfl, ht⟩ | ⟨t, v, rfl, ht, -, hf⟩
    · refine ⟨t, v, rfl, by simp [ht], by simp [ht], ?_, ?_⟩
      · rintro hk
        rw [ht] at hk
        injection hk with hk
        subst hk
        exact absurd hword (by decide)
      · rintro ⟨hk, -⟩
        rw [ht] at hk
        injection hk with hk
        subst hk
        exact absurd hword (by decide)
    · refine ⟨t, v, rfl, fun hk => by simp [hk, TokenKind.startsExpression] at ht,
        fun hk => by simp [hk, TokenKind.startsExpression] at ht,
        fun hk => by simp [hk, TokenKind.startsExpression] at ht, ?_⟩
      rintro ⟨hk, hnames⟩
      obtain ⟨u, hu, hpar⟩ := hf hk
      cases v with
      | nil => simp at hu
      | cons b v =>
          obtain rfl : b = u := by simpa using hu
          simp [namesFunction, hpar] at hnames
  rw [List.cons_append, outcome_statements]
  simp only [if_neg hsemicolon, if_neg hrbrace, if_neg hif, if_neg hfunction]

theorem finds_statementsNil : FindsStatements [] [] := by
  refine Finds.intro [] rfl .nil fun rest _ hends => ?_
  rw [List.nil_append, outcome_statements]
  cases rest with
  | nil => rfl
  | cons t rest =>
      have ht : t.kind = .rbrace := hends t rfl
      simp [ht]

theorem EndsStatements.endsStatement {rest : List Token} (h : EndsStatements rest) :
    endsStatement rest = true := by
  cases rest with
  | nil => rfl
  | cons t rest =>
      have ht : t.kind = .rbrace := h t rfl
      simp [Phrase.endsStatement, ht]

theorem finds_statementsLast {w : List Token} {x : Node}
    (hw : Produces (.one .simpleStatement) w [x]) (h : FindsStatement w [x]) :
    FindsStatements w [x] := by
  obtain ⟨e, he, hread⟩ := h
  refine Finds.intro [e] rfl he fun rest hrest hends => ?_
  have hstatement : (simpleStatement (w ++ rest)).outcome = .ok (e, rest) :=
    hread rest hrest hends.endsStatement
  rw [outcome_statements_simple hw, hstatement]
  cases rest with
  | nil => rfl
  | cons t rest =>
      have ht : t.kind = .rbrace := hends t rfl
      simp [statementsRest, ht]

theorem finds_statementsSemicolon {s : Token} {v : List Token} {ns : List Node}
    (hs : s.Is .semicolon) (others : FindsStatements v ns) : FindsStatements (s :: v) ns := by
  obtain ⟨es, hes, hread⟩ := others
  refine Finds.intro es rfl hes fun rest hrest hends => ?_
  have hv : (statements (v ++ rest)).outcome = .ok (es, rest) := hread rest hrest hends
  rw [List.cons_append, outcome_statements]
  simp [hs.1, hv]

theorem finds_statementsSimple {s : Token} {u v : List Token} {x : Node} {ns : List Node}
    (hu : Produces (.one .simpleStatement) u [x]) (hv : Genuine v) (h : FindsStatement u [x])
    (hs : s.Is .semicolon) (others : FindsStatements v ns) :
    FindsStatements (u ++ s :: v) (x :: ns) := by
  obtain ⟨e, he, hstatement⟩ := h
  obtain ⟨es, hes, hread⟩ := others
  refine Finds.intro (e :: es) rfl (he.cons hes) fun rest hrest hends => ?_
  have hfirst : (simpleStatement (u ++ s :: (v ++ rest))).outcome = .ok (e, s :: (v ++ rest)) :=
    hstatement _ (by simp [hs.2, hv, hrest]) (by simp [endsStatement, hs.1])
  have hothers : (statements (v ++ rest)).outcome = .ok (es, rest) := hread rest hrest hends
  have happend : u ++ s :: v ++ rest = u ++ s :: (v ++ rest) := by simp
  rw [happend, outcome_statements_simple hu, hfirst]
  simp [statementsRest, hs.1, hothers]

theorem finds_statementsCompound {u v : List Token} {x : Node} {ns : List Node}
    (hv : Produces .statements v ns) (h : FindsCompound u [x]) (others : FindsStatements v ns) :
    FindsStatements (u ++ v) (x :: ns) := by
  obtain ⟨es, hes, hread⟩ := others
  have hothers {rest : List Token} (hrest : Genuine rest) (hends : EndsStatements rest) :
      (statements (v ++ rest)).outcome = .ok (es, rest) := hread rest hrest hends
  have hgenuine {rest : List Token} (hrest : Genuine rest) : Genuine (v ++ rest) :=
    genuine_append.2 ⟨genuine_of_produces hv, hrest⟩
  rcases h with ⟨⟨e, he, hif⟩, t, w, rfl, ht⟩ | ⟨⟨e, he, hfunction⟩, t, k, w, rfl, ht, hk⟩
  · refine Finds.intro (e :: es) rfl (he.cons hes) fun rest hrest hends => ?_
    -- No statement starts with `else`, so what follows does not become part of the condition.
    have hnoElse : NoElse (v ++ rest) := by
      cases v with
      | nil =>
          intro c hc
          rw [hends c hc]
          simp
      | cons c v =>
          rintro _ ⟨⟩
          exact (opensBlock_of_statements hv c v rfl).2.1
    have hfirst : (ifStatement (t :: (w ++ (v ++ rest)))).outcome = .ok (e, v ++ rest) :=
      hif _ (hgenuine hrest) hnoElse
    rw [List.append_assoc, List.cons_append, outcome_statements]
    simp [ht, hfirst, hothers hrest hends]
  · refine Finds.intro (e :: es) rfl (he.cons hes) fun rest hrest hends => ?_
    have hfirst : (functionDeclaration (t :: k :: (w ++ (v ++ rest)))).outcome =
        .ok (e, v ++ rest) := hfunction _ (hgenuine hrest) trivial
    rw [List.append_assoc, List.cons_append, List.cons_append, outcome_statements]
    simp [ht, namesFunction, hk, hfirst, hothers hrest hends]

theorem finds_block {o c : Token} {w : List Token} {ns : List Node} (ho : o.Is .lbrace)
    (hc : c.Is .rbrace) (body : FindsStatements w ns) :
    FindsBlock (o :: (w ++ [c])) [.tree "block" (some o.pos) ns] := by
  obtain ⟨es, hes, hread⟩ := body
  refine Finds.intro (.node (some o.pos) (.block es))
    (by rw [Term.toNode, Form.toNode, toNodes_term]) hes.under fun rest hrest _ => ?_
  have hw : (statements (w ++ c :: rest)).outcome = .ok (es, c :: rest) :=
    hread _ (genuine_cons.2 ⟨hc.2, hrest⟩) (by rintro _ ⟨⟩; exact hc.1)
  rw [between_append, outcome_block]
  simp [token, ho.1, hw, hc.1]

theorem finds_functionDeclaration {k t : Token} {u v : List Token} {x y : Node}
    (ht : t.Is (.keyword .functionWord)) (hk : k.Is .name) (hv : Genuine v) (ps : FindsParams u [x])
    (body : FindsBlock v [y]) :
    FindsFunction (t :: k :: (u ++ v)) [.tree "function_decl" (some t.pos) [k.leaf, x, y]] := by
  obtain ⟨p, hp, hparams⟩ := ps
  obtain ⟨b, hb, hblock⟩ := body
  refine Finds.intro (.node (some t.pos) (.functionDeclaration k.spelled p b))
    (by rw [Term.toNode, Form.toNode, leaf_of_is hk]) (.under (.triple (.refl _) hp hb))
    fun rest hrest _ => ?_
  have hu : (params (u ++ (v ++ rest))).outcome = .ok (p, v ++ rest) :=
    hparams _ (genuine_append.2 ⟨hv, hrest⟩) trivial
  have hbody : (block (v ++ rest)).outcome = .ok (b, rest) := hblock rest hrest trivial
  have happend : t :: k :: (u ++ v) ++ rest = t :: k :: (u ++ (v ++ rest)) := by simp
  rw [happend, outcome_functionDeclaration]
  simp [token, ht.1, hk.1, hu, hbody]

section

variable {o c q t : Token} {u v w : List Token} {x y z : Node}
  (ht : t.Is (.keyword .ifWord)) (ho : o.Is .lpar) (hc : c.Is .rpar) (hv : Genuine v)
  (condition : FindsExpression u [x]) (yes : FindsBlock v [y])

include ht ho hc hv condition yes

/-- Reading a condition and a block. -/
theorem outcome_ifStatement_block :
    ∃ e b : Term, AgreesBut BothWays [e.toNode] [x] ∧ AgreesBut BothWays [b.toNode] [y] ∧
      ∀ rest, Genuine rest → (ifStatement (t :: o :: (u ++ c :: (v ++ rest)))).outcome =
        ifRest t.pos e b rest := by
  obtain ⟨e, he, hexpression⟩ := condition
  obtain ⟨b, hb, hblock⟩ := yes
  refine ⟨e, b, he, hb, fun rest hrest => ?_⟩
  have hbehind : Genuine (c :: (v ++ rest)) := by
    simp [hc.2, hv, hrest]
  have hu : (expression (u ++ c :: (v ++ rest))).outcome = .ok (e, c :: (v ++ rest)) :=
    hexpression _ hbehind (stops_cons (by simp [hc.1]))
  have hyes : (block (v ++ rest)).outcome = .ok (b, rest) := hblock rest hrest trivial
  rw [outcome_ifStatement]
  simp only [token, ht.1, ho.1, hc.1, if_true, hu, hyes, Outcome.andThen_ok]

theorem finds_ifThen :
    FindsIf (t :: o :: (u ++ c :: v)) [.tree "if_stmt" (some t.pos) [x, y]] := by
  obtain ⟨e, b, he, hb, hread⟩ := outcome_ifStatement_block ht ho hc hv condition yes
  refine Finds.intro (.node (some t.pos) (.ifThen e b)) (by rw [Term.toNode, Form.toNode])
    (.under (.pair he hb)) fun rest hrest hnoElse => ?_
  have happend : t :: o :: (u ++ c :: v) ++ rest = t :: o :: (u ++ c :: (v ++ rest)) := by simp
  rw [happend, hread rest hrest]
  cases rest with
  | nil => rfl
  | cons e' rest =>
      have he' : e'.kind ≠ .keyword .elseWord := hnoElse e' rfl
      simp [ifRest, he']

variable (hq : q.Is (.keyword .elseWord)) (hw : Genuine w)

include hq hw

theorem finds_ifElse (hno : Produces (.one .block) w [z]) (no : FindsBlock w [z]) :
    FindsIf (t :: o :: (u ++ c :: (v ++ q :: w))) [.tree "if_stmt" (some t.pos) [x, y, z]] := by
  obtain ⟨e, b, he, hb, hread⟩ := outcome_ifStatement_block ht ho hc hv condition yes
  obtain ⟨d, hd, hother⟩ := no
  refine Finds.intro (.node (some t.pos) (.ifThenElse e b d)) (by rw [Term.toNode, Form.toNode])
    (.under (.triple he hb hd)) fun rest hrest _ => ?_
  have hno' : (block (w ++ rest)).outcome = .ok (d, rest) := hother rest hrest trivial
  have hif : startsIf (w ++ rest) = false := by
    cases hno with
    | block hbrace => simp [startsIf, hbrace.1]
  have happend : t :: o :: (u ++ c :: (v ++ q :: w)) ++ rest =
      t :: o :: (u ++ c :: (v ++ q :: (w ++ rest))) := by simp
  rw [happend, hread _ (by simp [hq.2, hw, hrest])]
  simp [ifRest, hq.1, hif, hno']

theorem finds_ifElseIf (hno : Produces (.one .ifStatement) w [z]) (no : FindsIf w [z]) :
    FindsIf (t :: o :: (u ++ c :: (v ++ q :: w))) [.tree "if_stmt" (some t.pos) [x, y, z]] := by
  obtain ⟨e, b, he, hb, hread⟩ := outcome_ifStatement_block ht ho hc hv condition yes
  obtain ⟨d, hd, hother⟩ := no
  refine Finds.intro (.node (some t.pos) (.ifThenElse e b d)) (by rw [Term.toNode, Form.toNode])
    (.under (.triple he hb hd)) fun rest hrest hnoElse => ?_
  have hno' : (ifStatement (w ++ rest)).outcome = .ok (d, rest) := hother rest hrest hnoElse
  have hif : startsIf (w ++ rest) = true := by
    cases hno with
    | ifThen h | ifElse h | ifElseIf h => simp [startsIf, h.1]
  have happend : t :: o :: (u ++ c :: (v ++ q :: w)) ++ rest =
      t :: o :: (u ++ c :: (v ++ q :: (w ++ rest))) := by simp
  rw [happend, hread _ (by simp [hq.2, hw, hrest])]
  simp [ifRest, hq.1, hif, hno']

end

theorem finds_compoundIf {w : List Token} {x : Node} (hw : Produces (.one .ifStatement) w [x])
    (h : FindsIf w [x]) : FindsCompound w [x] := by
  refine Or.inl ⟨h, ?_⟩
  cases hw with
  | ifThen ht | ifElse ht | ifElseIf ht => exact ⟨_, _, rfl, ht.1⟩

theorem finds_compoundFunction {w : List Token} {x : Node}
    (hw : Produces (.one .functionDeclaration) w [x]) (h : FindsFunction w [x]) :
    FindsCompound w [x] := by
  refine Or.inr ⟨h, ?_⟩
  cases hw with
  | functionDeclaration ht hn => exact ⟨_, _, _, rfl, ht.1, hn.1⟩

theorem finds_start {w : List Token} {ns : List Node} (h : FindsStatements w ns) :
    ∃ t, program w = .ok t ∧ AgreesBut BothWays [t.toNode] [.tree "program" (startOf w) ns] := by
  obtain ⟨es, hes, hread⟩ := h
  refine ⟨.node (startOf w) (.program es), ?_, ?_⟩
  · have hw : (statements (w ++ [])).outcome = .ok (es, []) :=
      hread [] genuine_nil (by simp [EndsStatements])
    rw [List.append_nil] at hw
    rw [program_eq, hw]
  · rw [Term.toNode, Form.toNode, toNodes_term]
    exact .under hes

end Phrase

end VariantScript.Syntax
