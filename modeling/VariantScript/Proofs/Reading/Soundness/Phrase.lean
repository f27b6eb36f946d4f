import VariantScript.Proofs.Grammar.Heads
import VariantScript.Proofs.Reading.Soundness.Pattern

/-!
# Phrases within the grammar

Expressions and statements are read within the grammar.  The readers call each other, so the proof
about one of them is part of a recursion through all of them, on the measure by which they end.
-/

namespace VariantScript.Syntax

open Grammar

namespace Phrase

open Outcome

theorem toNodes_term (ts : List Term) : Term.toNodes ts = ts.map Term.toNode := by
  induction ts with
  | nil => simp [Term.toNodes]
  | cons t ts ih => simp [Term.toNodes, ih]

theorem toNodes_field (fs : List Field) : Field.toNodes fs = fs.map Field.toNode := by
  induction fs with
  | nil => simp [Field.toNodes]
  | cons f fs ih => simp [Field.toNodes, ih]

theorem startOf_append {u : List Token} (v : List Token) (hu : u ≠ []) :
    startOf (u ++ v) = startOf u := by
  cases u with
  | nil => exact absurd rfl hu
  | cons t u => rfl

/-- A parenthesis is read both as parameters and as an operand, and both readings are within the
grammar; the arrow tells which of them counts. -/
theorem sound_parenthesisStep {t : Token} {us : List Token} {o : Outcome Term}
    (hts : Genuine (t :: us)) (hoperand : o.Sound (t :: us) Term.toNode (Writes .expression))
    (hbody : ∀ behind, behind.length < (t :: us).length → Genuine behind →
      (arrowBody behind).outcome.Sound behind Term.toNode fun w n => Produces .body w [n]) :
    (parenthesisStep t (params (t :: us)).outcome o).Sound (t :: us) Term.toNode
      (Writes .expression) := by
  have hparams := sound_params hts
  -- Where parameters can go on, so can an expression: with an arrow and a block.
  have goes {w v : List Token} {n : Node} (hw : Writes .params (w ++ v) n) :
      ∃ x m, Writes .expression (w ++ x) m :=
    ⟨v ++ TokenKind.arrow.sample :: sampleBlock, _, by
      simpa using Produces.expressionArrow
        (.arrowParams hw TokenKind.arrow.sample_is (.bodyBlock writes_sampleBlock))⟩
  cases hread : (params (t :: us)).outcome with
  | error behind =>
      rw [hread] at hparams
      obtain ⟨w, hw, v, n, hn⟩ := hparams
      exact hoperand.orFurther ⟨w, hw, goes hn⟩
  | ok p =>
      obtain ⟨ps, behind⟩ := p
      rw [hread] at hparams
      obtain ⟨w, hw, hps⟩ := hparams
      have hw' : ∃ x m, Writes .expression (w ++ x) m := goes (v := []) (by simpa using hps)
      cases behind with
      | nil => exact hoperand.orFurther ⟨w, hw, hw'⟩
      | cons a behind =>
          dsimp only [parenthesisStep]
          split
          · rename_i harrow
            have hlt := Reply.length_lt_of_outcome hread
            obtain ⟨w, rfl⟩ : ∃ v, w = t :: v := by
              cases w with
              | nil => exact absurd rfl (nonempty_of_produces hps trivial)
              | cons t' w => exact ⟨w, by rw [(List.cons.inj hw).1]⟩
            have hbehind := hbody behind (by simp only [List.length_cons] at hlt ⊢; omega)
            rw [hw] at hts ⊢
            obtain ⟨-, ha, hgenuine⟩ : _ ∧ a.IsGenuine ∧ Genuine behind := by
              simpa using genuine_append.1 hts
            refine Sound.behind (Sound.cons (Sound.map (hbehind hgenuine)
              (g := fun n => .tree "arrow" (some t.pos) [ps.toNode, n])
              (fun body => ?_) fun v n hv => ?_))
            · simp [Term.toNode, Form.toNode]
            · exact .expressionArrow (.arrowParams hps ⟨harrow, ha⟩ hv)
          · exact hoperand.orFurther ⟨w, hw, hw'⟩

mutual

theorem sound_expression {ts : List Token} (hts : Genuine ts) :
    (expression ts).outcome.Sound ts Term.toNode (Writes .expression) := by
  have operand {us : List Token} (h : (conditional us).outcome.Sound us Term.toNode
      (Writes .conditional)) : (conditional us).outcome.Sound us Term.toNode (Writes .expression) :=
    h.mono fun _ _ hw => .expressionConditional hw
  rw [outcome_expression]
  match ts with
  | [] => exact ⟨[], rfl, _, _, writes_sampleExpression⟩
  | [t] => exact operand (sound_conditional hts)
  | t :: u :: rest =>
      have hlength : (t :: u :: rest).length = rest.length + 2 := rfl
      have hoperand := operand (sound_conditional hts)
      obtain ⟨ht, hu, hrest⟩ : t.IsGenuine ∧ u.IsGenuine ∧ Genuine rest := by
        simpa using hts
      dsimp only
      split
      · rename_i hkinds
        refine Sound.cons (Sound.cons (Sound.map (sound_arrowBody hrest)
          (g := fun n => .tree "arrow" (some t.pos)
            [.tree "params" (some t.pos) [bindTree t], n]) (fun body => ?_) fun w n hw => ?_))
        · simp [Term.toNode, Form.toNode, Params.toNode, toNodes_pattern, toNode_bindName hkinds.1]
        · exact .expressionArrow (.arrowName ⟨hkinds.1, ht⟩ ⟨hkinds.2, hu⟩ hw)
      · split
        · exact sound_parenthesisStep hts hoperand fun behind hlt hbehind => sound_arrowBody hbehind
        · exact hoperand
-- On the same tokens the looser readers call the tighter ones; 32 is more than all of their ranks.
termination_by 32 * ts.length + 20
decreasing_by all_goals omega

theorem sound_arrowBody {ts : List Token} (hts : Genuine ts) :
    (arrowBody ts).outcome.Sound ts Term.toNode fun w n => Produces .body w [n] := by
  rw [outcome_arrowBody]
  match ts with
  | [] => exact ⟨[], rfl, _, _, .bodyBlock writes_sampleBlock⟩
  | t :: rest =>
      dsimp only
      split
      · exact (sound_block hts).mono fun _ _ hw => .bodyBlock hw
      · exact (sound_expression hts).mono fun _ _ hw => .bodyExpression hw
termination_by 32 * ts.length + 22
decreasing_by all_goals omega

theorem sound_conditional {ts : List Token} (hts : Genuine ts) :
    (conditional ts).outcome.Sound ts Term.toNode (Writes .conditional) := by
  rw [outcome_conditional]
  -- The operand alone is a conditional already, so a failure in it needs no sample behind.
  refine Sound.andThen hts (sound_chain .or hts) (fun w n hw => ⟨[], n, ?_⟩)
    (fun condition behind hlt hbehind u hu hcondition => ?_)
  · simpa using Produces.conditionalOperand hw
  · match behind with
    | [] => exact ⟨[], rfl, by simpa using Produces.conditionalOperand hcondition⟩
    | q :: rest =>
        obtain ⟨hq, hrest⟩ := genuine_cons.1 hbehind
        dsimp only [conditionalRest]
        split
        · rename_i hqmark
          have ternary {v : List Token} {y : Node} (hy : Writes .expression v y) (c : Token)
              (hc : c.Is .colon) {w : List Token} {z : Node} (hz : Writes .expression w z) :
              Writes .conditional (u ++ q :: (v ++ c :: w))
                (.tree "ternary" (startOf ts) [condition.toNode, y, z]) := by
            have hstart : startOf (u ++ q :: (v ++ c :: w)) = startOf ts := by
              have hne := nonempty_of_produces hcondition trivial
              rw [hu, startOf_append _ hne, startOf_append _ hne]
            rw [← hstart]
            exact .ternary hcondition ⟨hqmark, hq⟩ hy hc hz
          refine Sound.cons (Sound.andThen hrest (sound_expression hrest) (fun v y hy => ?_)
            (fun yes behindYes hltYes hbehindYes v _ hy => ?_))
          · exact ⟨TokenKind.colon.sample :: [sampleName], _,
              ternary hy _ TokenKind.colon.sample_is writes_sampleExpression⟩
          · refine sound_token hbehindYes (fun c hc => ⟨[sampleName], _,
              ternary hy c hc writes_sampleExpression⟩) (fun c other hother hgenuine hc => ?_)
            have hltOther : other.length < behindYes.length := by simp [hother]
            refine Sound.map (sound_expression hgenuine)
              (g := fun n => .tree "ternary" (startOf ts) [condition.toNode, yes.toNode, n])
              (fun no => ?_) fun w z hz => ?_
            · simp [Term.toNode, Form.toNode]
            · exact ternary hy c hc hz
        · exact ⟨[], rfl, by simpa using Produces.conditionalOperand hcondition⟩
termination_by 32 * ts.length + 18
decreasing_by all_goals (simp only [List.length_cons, Level.rank] at *; omega)

theorem sound_operand (l : Level) {ts : List Token} (hts : Genuine ts) :
    (operand l ts).outcome.Sound ts Term.toNode (Writes (Rule.operand l)) := by
  unfold operand Rule.operand
  match h : l.tighter? with
  | some tighter => exact sound_chain tighter hts
  | none => exact sound_unary hts
termination_by 32 * ts.length + 3 + 2 * l.rank
decreasing_by
  all_goals try have := Level.rank_tighter h
  all_goals have := l.rank_pos
  all_goals omega

theorem sound_chain (l : Level) {ts : List Token} (hts : Genuine ts) :
    (chain l ts).outcome.Sound ts Term.toNode (Writes (.level l)) := by
  rw [outcome_chain]
  refine Sound.andThen hts (sound_operand l hts) (fun w n hw => ⟨[], n, ?_⟩)
    (fun left behind hlt hbehind u hu hleft => ?_)
  · simpa using Produces.levelOperand hw
  · refine sound_chainRest l (.levelOperand hleft) ?_ hbehind
    rw [hu, startOf_append _ (nonempty_of_produces hleft (isFilled_operand l))]
termination_by 32 * ts.length + 4 + 2 * l.rank
decreasing_by all_goals omega

/-- Reading on behind a left operand, which is written as `u`. -/
theorem sound_chainRest (l : Level) {start : Option Position} {left : Term} {u ts : List Token}
    (hu : Writes (.level l) u left.toNode) (hstart : startOf u = start) (hts : Genuine ts) :
    (chainRest l start left ts).outcome.Sound ts Term.toNode
      fun w n => Writes (.level l) (u ++ w) n := by
  have hne := nonempty_of_produces hu trivial
  rw [outcome_chainRest]
  match ts with
  | [] => exact ⟨[], rfl, by simpa using hu⟩
  | op :: rest =>
      obtain ⟨hop, hrest⟩ := genuine_cons.1 hts
      dsimp only
      split
      · rename_i haccepts
        have operation {v : List Token} {n : Node} (hn : Writes (Rule.operand l) v n) :
            Writes (.level l) (u ++ op :: v)
              (.tree (operationLabel l) start (left.toNode :: (operatorLeaves l op ++ [n]))) := by
          rw [← hstart, ← startOf_append (op :: v) hne]
          exact .operation hu ⟨haccepts, hop⟩ hn
        have alone (w : List Token) (n : Node) (hw : Writes (Rule.operand l) w n) :
            ∃ u' n', Writes (.level l) (u ++ op :: (w ++ u')) n' :=
          ⟨[], _, by rw [List.append_nil]; exact operation hw⟩
        refine Sound.cons (Sound.andThen hrest (sound_operand l hrest) alone
          (fun right behind hlt hbehind v _ hright => ?_))
        -- The operation read so far is the left operand of what stands behind it.
        · have hnext := operation hright
          rw [← toNode_combine ⟨haccepts, hop⟩] at hnext
          refine (sound_chainRest l hnext ?_ hbehind).mono fun w n hw => by simpa using hw
          rw [startOf_append _ hne, hstart]
      · exact ⟨[], rfl, by simpa using hu⟩
termination_by 32 * ts.length
decreasing_by
  all_goals have : l.rank ≤ 6 := by cases l <;> decide
  all_goals simp only [List.length_cons] at *
  all_goals omega

theorem sound_unary {ts : List Token} (hts : Genuine ts) :
    (unary ts).outcome.Sound ts Term.toNode (Writes .unary) := by
  rw [outcome_unary]
  match ts with
  | [] => exact ⟨[], rfl, _, _, writes_sampleUnary⟩
  | t :: rest =>
      have hlength : (t :: rest).length = rest.length + 1 := rfl
      obtain ⟨ht, hrest⟩ := genuine_cons.1 hts
      dsimp only
      split
      · rename_i hkind
        refine Sound.cons (Sound.map (sound_unary hrest)
          (g := fun n => .tree "unary" (some t.pos) [t.leaf, n]) (fun e => ?_) fun w n hw => ?_)
        · simp [Term.toNode, Form.toNode, Token.leaf, Token.spelled, UnaryOp.kind,
            UnaryOp.spelling, hkind, bang_text ⟨hkind, ht⟩]
        · exact .unaryOperation (Or.inl ⟨hkind, ht⟩) hw
      · split
        · rename_i hkind
          refine Sound.cons (Sound.map (sound_unary hrest)
            (g := fun n => .tree "unary" (some t.pos) [t.leaf, n]) (fun e => ?_) fun w n hw => ?_)
          · simp [Term.toNode, Form.toNode, Token.leaf, Token.spelled, UnaryOp.kind,
              UnaryOp.spelling, hkind, minus_text ⟨hkind, ht⟩]
          · exact .unaryOperation (Or.inr ⟨hkind, ht⟩) hw
        · refine Sound.andThen hts (sound_primary hts) (fun w n hw => ⟨[], n, ?_⟩)
            (fun e behind hlt hbehind u hu he => ?_)
          · simpa using Produces.unarySuffixed (.suffixedPrimary hw)
          · refine (sound_postfixRest (.suffixedPrimary he) ?_ hbehind).mono
              fun w n hw => .unarySuffixed hw
            rw [← startOf_append behind (nonempty_of_produces he trivial), ← hu]
            rfl
termination_by 32 * ts.length + 4
decreasing_by all_goals omega

/-- Reading on behind an operand, which is written as `u`. -/
theorem sound_postfixRest {start : Option Position} {e : Term} {u ts : List Token}
    (hu : Writes .suffixed u e.toNode) (hstart : startOf u = start) (hts : Genuine ts) :
    (postfixRest start e ts).outcome.Sound ts Term.toNode
      fun w n => Writes .suffixed (u ++ w) n := by
  have hne := nonempty_of_produces hu trivial
  rw [outcome_postfixRest]
  match ts with
  | [] => exact ⟨[], rfl, by simpa using hu⟩
  | t :: rest =>
      have hlength : (t :: rest).length = rest.length + 1 := rfl
      obtain ⟨ht, hrest⟩ := genuine_cons.1 hts
      dsimp only
      split
      · rename_i hkind
        have call {v : List Token} {ns : List Node} (hv : WritesList .expression .rpar v ns) :
            Writes .suffixed (u ++ t :: v) (.tree "call" start (e.toNode :: ns)) := by
          obtain ⟨v, c, rfl, hc, hv⟩ := hv
          rw [← hstart, ← startOf_append (t :: (v ++ [c])) hne]
          exact .call hu ⟨hkind, ht⟩ hv hc
        refine Sound.cons (Sound.andThen hrest (sound_expressions .rpar hrest)
          (fun w n hw => ⟨[], _, by rw [List.append_nil]; exact call hw⟩)
          (fun args behind hlt hbehind v _ hargs => ?_))
        · have hnext := call hargs
          -- Further suffixes stand behind the call, so its tree has to be that of a term.
          have htree : Node.tree "call" start (e.toNode :: args.map Term.toNode) =
              (Term.node start (.call e args)).toNode := by
            simp [Term.toNode, Form.toNode, toNodes_term]
          rw [htree] at hnext
          refine (sound_postfixRest hnext ?_ hbehind).mono fun w n hw => by simpa using hw
          rw [startOf_append _ hne, hstart]
      · split
        · rename_i hkind
          have member {name : Token} (hname : name.Is .name) :
              Writes .suffixed (u ++ [t, name]) (.tree "member" start [e.toNode, name.leaf]) := by
            rw [← hstart, ← startOf_append [t, name] hne]
            exact .member hu ⟨hkind, ht⟩ hname
          refine Sound.cons (sound_token hrest (fun name hname => ⟨[], _, member hname⟩)
            (fun name behind hbehind hgenuine hname => ?_))
          have hnext := member hname
          have htree : Node.tree "member" start [e.toNode, name.leaf] =
              (Term.node start (.member e name.spelled)).toNode := by
            simp [Term.toNode, Form.toNode, Token.leaf, hname.1]
          rw [htree] at hnext
          have hlt : behind.length < rest.length := by simp [hbehind]
          refine (sound_postfixRest hnext ?_ hgenuine).mono fun w n hw => by simpa using hw
          rw [startOf_append _ hne, hstart]
        · split
          · rename_i hkind
            have index {v : List Token} {n : Node} (hv : Writes .expression v n) {c : Token}
                (hc : c.Is .rsqb) :
                Writes .suffixed (u ++ t :: (v ++ [c])) (.tree "index" start [e.toNode, n]) := by
              rw [← hstart, ← startOf_append (t :: (v ++ [c])) hne]
              exact .index hu ⟨hkind, ht⟩ hv hc
            refine Sound.cons (Sound.andThen hrest (sound_expression hrest)
              (fun w n hw => ⟨[TokenKind.rsqb.sample], _, index hw TokenKind.rsqb.sample_is⟩)
              (fun i behind hlt hbehind v _ hi => ?_))
            refine sound_token hbehind (fun c hc => ⟨[], _, index hi hc⟩)
              (fun c more hmore hgenuine hc => ?_)
            have hnext := index hi hc
            have htree : Node.tree "index" start [e.toNode, i.toNode] =
                (Term.node start (.index e i)).toNode := by
              simp [Term.toNode, Form.toNode]
            rw [htree] at hnext
            have hltMore : more.length < behind.length := by simp [hmore]
            refine (sound_postfixRest hnext ?_ hgenuine).mono fun w n hw => by simpa using hw
            rw [startOf_append _ hne, hstart]
          · exact ⟨[], rfl, by simpa using hu⟩
termination_by 32 * ts.length
decreasing_by all_goals omega

theorem sound_primary {ts : List Token} (hts : Genuine ts) :
    (primary ts).outcome.Sound ts Term.toNode (Writes .primary) := by
  rw [outcome_primary]
  match ts with
  | [] => exact ⟨[], rfl, _, _, writes_sampleName⟩
  | t :: rest =>
      have hlength : (t :: rest).length = rest.length + 1 := rfl
      obtain ⟨ht, hrest⟩ := genuine_cons.1 hts
      dsimp only
      split
      · rename_i hkind
        refine ⟨[t], rfl, ?_⟩
        simpa [Term.toNode, Form.toNode, leaf_of_is ⟨hkind, ht⟩] using
          Produces.number ⟨hkind, ht⟩
      · rename_i hkind
        refine ⟨[t], rfl, ?_⟩
        simpa [Term.toNode, Form.toNode, leaf_of_is ⟨hkind, ht⟩] using
          Produces.string ⟨hkind, ht⟩
      · rename_i hkind
        refine ⟨[t], rfl, ?_⟩
        simpa [Term.toNode, Form.toNode, leaf_of_is ⟨hkind, ht⟩, referenceTree] using
          Produces.reference ⟨hkind, ht⟩
      · rename_i hkind
        exact ⟨[t], rfl, by simpa [Term.toNode, Form.toNode] using Produces.trueWord ⟨hkind, ht⟩⟩
      · rename_i hkind
        exact ⟨[t], rfl, by simpa [Term.toNode, Form.toNode] using Produces.falseWord ⟨hkind, ht⟩⟩
      · rename_i hkind
        refine Sound.cons (Sound.map (sound_expressions .rsqb hrest)
          (g := .tree "array" (some t.pos)) (fun es => ?_) ?_)
        · simp [Term.toNode, Form.toNode, toNodes_term]
        · rintro _ ns ⟨u, c, rfl, hc, hu⟩
          exact .primaryArray (.array ⟨hkind, ht⟩ hu hc)
      · rename_i hkind
        refine Sound.cons (Sound.map (sound_fields hrest)
          (g := .tree "object" (some t.pos)) (fun fs => ?_) ?_)
        · simp [Term.toNode, Form.toNode, toNodes_field]
        · rintro _ ns ⟨u, c, rfl, hc, hu⟩
          exact .primaryObject (.object ⟨hkind, ht⟩ hu hc)
      · rename_i hkind
        refine Sound.cons (Sound.andThen hrest (sound_params hrest) (fun w n hw => ?_)
          (fun ps behind hlt hbehind u _ hps => ?_))
        · exact ⟨sampleBlock, _, .functionExpression ⟨hkind, ht⟩ hw writes_sampleBlock⟩
        · refine Sound.map (sound_block hbehind)
            (g := fun n => .tree "function_expr" (some t.pos) [ps.toNode, n]) (fun body => ?_)
            fun w n hw => ?_
          · simp [Term.toNode, Form.toNode]
          · exact .functionExpression ⟨hkind, ht⟩ hps hw
      · rename_i hkind
        refine Sound.cons (Sound.andThen hrest (sound_expression hrest) (fun w n hw => ?_)
          (fun e behind hlt hbehind u _ he => ?_))
        · exact ⟨[TokenKind.rpar.sample], n, .parenthesized ⟨hkind, ht⟩ hw TokenKind.rpar.sample_is⟩
        · refine sound_closing hbehind (fun c hc => ?_)
          exact .parenthesized ⟨hkind, ht⟩ he hc
      · exact ⟨[], rfl, _, _, writes_sampleName⟩
termination_by 32 * ts.length
decreasing_by all_goals omega

theorem sound_expressions (close : TokenKind) {ts : List Token} (hts : Genuine ts) :
    (expressions close ts).outcome.Sound ts (List.map Term.toNode)
      (WritesList .expression close) := by
  rw [outcome_expressions]
  exact sound_itemsStep hts (fun _ => sound_expression hts) fun more hlt hmore =>
    sound_expressions close hmore
termination_by 32 * ts.length + 22
decreasing_by all_goals omega

theorem sound_fields {ts : List Token} (hts : Genuine ts) :
    (fields ts).outcome.Sound ts (List.map Field.toNode) (WritesList .field .rbrace) := by
  rw [outcome_fields]
  exact sound_itemsStep hts (fun _ => sound_field hts) fun more hlt hmore => sound_fields hmore
termination_by 32 * ts.length + 2
decreasing_by all_goals omega

theorem sound_field {ts : List Token} (hts : Genuine ts) :
    (field ts).outcome.Sound ts Field.toNode (Writes .field) := by
  rw [outcome_field]
  refine sound_fieldStep (g := fun k b => .tree "field" (some k.pos) [keyTree k, b]) hts
    (fun more hlt hmore => sound_expression hmore) ⟨_, _, writes_sampleExpression⟩
    (fun k c w b hk hc hb => .field hk hc hb) (fun t ht => ?_) (fun k x hk => ?_)
  · rw [toNode_fieldShorthand ht]
    exact .fieldShorthand ht
  · simp [Field.toNode, toNode_keyOf hk]
termination_by 32 * ts.length
decreasing_by all_goals omega

theorem sound_block {ts : List Token} (hts : Genuine ts) :
    (block ts).outcome.Sound ts Term.toNode (Writes .block) := by
  rw [outcome_block]
  refine sound_token hts (fun t ht => ?_) (fun t rest hrest hgenuine ht => ?_)
  · exact ⟨[TokenKind.rbrace.sample], _, .block ht .statementsNil TokenKind.rbrace.sample_is⟩
  · have hlt : rest.length < ts.length := by simp [hrest]
    refine Sound.andThen hgenuine (sound_statements hgenuine) (fun w ns hw => ?_)
      (fun body behind _ hbehind u _ hu => ?_)
    · exact ⟨[TokenKind.rbrace.sample], _, .block ht hw TokenKind.rbrace.sample_is⟩
    · refine sound_closing hbehind (fun c hc => ?_)
      simpa [Term.toNode, Form.toNode, toNodes_term] using Produces.block ht hu hc
termination_by 32 * ts.length
decreasing_by all_goals omega

theorem sound_statements {ts : List Token} (hts : Genuine ts) :
    (statements ts).outcome.Sound ts (List.map Term.toNode) (Produces .statements) := by
  rw [outcome_statements]
  match ts with
  | [] => exact ⟨[], rfl, .statementsNil⟩
  | t :: rest =>
      have hlength : (t :: rest).length = rest.length + 1 := rfl
      obtain ⟨ht, hrest⟩ := genuine_cons.1 hts
      have compound {w : List Token} {n : Node} (hw : Writes .compoundStatement w n) :
          Produces .statements (w ++ []) [n] := .statementsCompound hw .statementsNil
      dsimp only
      split
      · rename_i hkind
        exact Sound.cons ((sound_statements hrest).mono fun w ns hw =>
          .statementsSemicolon ⟨hkind, ht⟩ hw)
      · split
        · exact ⟨[], rfl, .statementsNil⟩
        · split
          · refine Sound.andThen hts (sound_ifStatement hts)
              (fun w n hw => ⟨[], _, compound (.compoundIf hw)⟩)
              (fun s behind hlt hbehind u _ hu => ?_)
            exact Sound.map (sound_statements hbehind) (g := (s.toNode :: ·)) (fun _ => rfl)
              fun w ns hw => .statementsCompound (.compoundIf hu) hw
          · split
            · refine Sound.andThen hts (sound_functionDeclaration hts)
                (fun w n hw => ⟨[], _, compound (.compoundFunction hw)⟩)
                (fun s behind hlt hbehind u _ hu => ?_)
              exact Sound.map (sound_statements hbehind) (g := (s.toNode :: ·)) (fun _ => rfl)
                fun w ns hw => .statementsCompound (.compoundFunction hu) hw
            · refine Sound.andThen hts (sound_simpleStatement hts)
                (fun w n hw => ⟨[], _, by simpa using Produces.statementsLast hw⟩)
                (fun s behind hlt hbehind u _ hu => ?_)
              -- A simple statement may be the last one whether or not a semicolon stands behind it.
              have last : Produces .statements (u ++ []) [s.toNode] := by
                simpa using Produces.statementsLast hu
              match behind with
              | [] => exact ⟨[], rfl, last⟩
              | c :: more =>
                  have hmore : (c :: more).length = more.length + 1 := rfl
                  dsimp only [statementsRest]
                  split
                  · rename_i hsemicolon
                    refine Sound.cons (Sound.map (sound_statements (genuine_cons.1 hbehind).2)
                      (g := (s.toNode :: ·)) (fun _ => rfl) fun w ns hw => ?_)
                    exact .statementsSimple hu ⟨hsemicolon, (genuine_cons.1 hbehind).1⟩ hw
                  · exact ⟨[], rfl, last⟩
termination_by 32 * ts.length + 24
decreasing_by all_goals omega

theorem sound_ifStatement {ts : List Token} (hts : Genuine ts) :
    (ifStatement ts).outcome.Sound ts Term.toNode (Writes .ifStatement) := by
  rw [outcome_ifStatement]
  refine sound_token hts (fun t ht => ?_) (fun t afterIf hafterIf hgenuine ht => ?_)
  · exact ⟨TokenKind.lpar.sample :: ([sampleName] ++ TokenKind.rpar.sample :: sampleBlock), _,
      .ifThen ht TokenKind.lpar.sample_is writes_sampleExpression TokenKind.rpar.sample_is
        writes_sampleBlock⟩
  have hltIf : afterIf.length < ts.length := by simp [hafterIf]
  refine sound_token hgenuine (fun o ho => ?_) (fun o inside hinside hgenuine ho => ?_)
  · exact ⟨[sampleName] ++ TokenKind.rpar.sample :: sampleBlock, _,
      .ifThen ht ho writes_sampleExpression TokenKind.rpar.sample_is writes_sampleBlock⟩
  have hltInside : inside.length < afterIf.length := by simp [hinside]
  refine Sound.andThen hgenuine (sound_expression hgenuine) (fun u x hu => ?_)
    (fun condition behindCondition hltCondition hgenuine u _ hu => ?_)
  · exact ⟨TokenKind.rpar.sample :: sampleBlock, _,
      .ifThen ht ho hu TokenKind.rpar.sample_is writes_sampleBlock⟩
  refine sound_token hgenuine (fun c hc => ?_) (fun c opening hopening hgenuine hc => ?_)
  · exact ⟨sampleBlock, _, .ifThen ht ho hu hc writes_sampleBlock⟩
  have hltOpening : opening.length < behindCondition.length := by simp [hopening]
  have alone {v : List Token} {y : Node} (hv : Writes .block v y) :
      Writes .ifStatement (t :: o :: (u ++ c :: (v ++ [])))
        (.tree "if_stmt" (some t.pos) [condition.toNode, y]) := by
    simpa using Produces.ifThen ht ho hu hc hv
  refine Sound.andThen hgenuine (sound_block hgenuine) (fun v y hv => ⟨[], _, alone hv⟩)
    (fun yes behind hltYes hgenuine v _ hv => ?_)
  -- Without `else` the condition is complete and takes nothing of what stands behind it.
  have unread {rest : List Token} :
      Outcome.Sound (.ok (Term.node (some t.pos) (.ifThen condition yes), rest)) rest Term.toNode
        fun w n => Writes .ifStatement (t :: o :: (u ++ c :: (v ++ w))) n :=
    ⟨[], rfl, by simpa [Term.toNode, Form.toNode] using alone hv⟩
  match behind with
  | [] => exact unread
  | e :: rest =>
      have hlength : (e :: rest).length = rest.length + 1 := rfl
      obtain ⟨he, hrest⟩ := genuine_cons.1 hgenuine
      dsimp only [ifRest]
      split
      · rename_i helse
        have htree (no : Term) : (Term.node (some t.pos) (.ifThenElse condition yes no)).toNode =
            .tree "if_stmt" (some t.pos) [condition.toNode, yes.toNode, no.toNode] := by
          simp [Term.toNode, Form.toNode]
        split
        · exact Sound.cons (Sound.map (sound_ifStatement hrest)
            (g := fun n => .tree "if_stmt" (some t.pos) [condition.toNode, yes.toNode, n])
            htree fun w n hw => .ifElseIf ht ho hu hc hv ⟨helse, he⟩ hw)
        · exact Sound.cons (Sound.map (sound_block hrest)
            (g := fun n => .tree "if_stmt" (some t.pos) [condition.toNode, yes.toNode, n])
            htree fun w n hw => .ifElse ht ho hu hc hv ⟨helse, he⟩ hw)
      · exact unread
termination_by 32 * ts.length
decreasing_by all_goals omega

theorem sound_functionDeclaration {ts : List Token} (hts : Genuine ts) :
    (functionDeclaration ts).outcome.Sound ts Term.toNode (Writes .functionDeclaration) := by
  rw [outcome_functionDeclaration]
  refine sound_token hts (fun t ht => ?_) (fun t afterWord hafterWord hgenuine ht => ?_)
  · exact ⟨sampleName :: (sampleParams ++ sampleBlock), _,
      .functionDeclaration ht TokenKind.name.sample_is writes_sampleParams writes_sampleBlock⟩
  have hltWord : afterWord.length < ts.length := by simp [hafterWord]
  refine sound_token hgenuine (fun name hname => ?_)
    (fun name afterName hafterName hgenuine hname => ?_)
  · exact ⟨sampleParams ++ sampleBlock, _,
      .functionDeclaration ht hname writes_sampleParams writes_sampleBlock⟩
  have hltName : afterName.length < afterWord.length := by simp [hafterName]
  refine Sound.andThen hgenuine (sound_params hgenuine) (fun u x hu => ?_)
    (fun ps behind hlt hgenuine u _ hu => ?_)
  · exact ⟨sampleBlock, _, .functionDeclaration ht hname hu writes_sampleBlock⟩
  · refine Sound.map (sound_block hgenuine)
      (g := fun n => .tree "function_decl" (some t.pos) [name.leaf, ps.toNode, n]) (fun body => ?_)
      fun w n hw => ?_
    · simp [Term.toNode, Form.toNode, Token.leaf, hname.1]
    · exact .functionDeclaration ht hname hu hw
termination_by 32 * ts.length
decreasing_by all_goals omega

theorem sound_simpleStatement {ts : List Token} (hts : Genuine ts) :
    (simpleStatement ts).outcome.Sound ts Term.toNode (Writes .simpleStatement) := by
  -- The three words for declarations are read alike and leave no trace in the tree.
  have declares {t : Token} (ht : t.IsDeclarator) {rest : List Token}
      (hlt : rest.length < ts.length) (hrest : Genuine rest) :
      ((pattern rest).outcome.andThen fun p behind =>
        (token .equal behind).andThen fun _ more =>
          (expression more).outcome.map fun e =>
            Term.node (some t.pos) (.declaration p e)).Sound rest Term.toNode
        fun w n => Writes .simpleStatement (t :: w) n := by
    refine Sound.andThen hrest (sound_pattern hrest) (fun u x hu => ?_)
      (fun p behind hltPattern hgenuine u _ hu => ?_)
    · exact ⟨TokenKind.equal.sample :: [sampleName], _, .simpleDeclaration (.declaration ht hu
        TokenKind.equal.sample_is writes_sampleExpression)⟩
    refine sound_token hgenuine (fun o ho => ?_) (fun o more hmore hgenuine ho => ?_)
    · exact ⟨[sampleName], _, .simpleDeclaration (.declaration ht hu ho writes_sampleExpression)⟩
    have hltMore : more.length < behind.length := by simp [hmore]
    refine Sound.map (sound_expression hgenuine)
      (g := fun n => .tree "declaration" (some t.pos) [p.toNode, n]) (fun e => ?_) fun w n hw => ?_
    · simp [Term.toNode, Form.toNode]
    · exact .simpleDeclaration (.declaration ht hu ho hw)
  rw [outcome_simpleStatement]
  match ts with
  | [] => exact ⟨[], rfl, _, _, .expressionStatement writes_sampleExpression⟩
  | t :: rest =>
      have hlength : (t :: rest).length = rest.length + 1 := rfl
      obtain ⟨ht, hrest⟩ := genuine_cons.1 hts
      dsimp only
      split
      · rename_i hkind
        exact (declares (Or.inl ⟨hkind, ht⟩) (by simp) hrest).cons
      · rename_i hkind
        exact (declares (Or.inr (Or.inl ⟨hkind, ht⟩)) (by simp) hrest).cons
      · rename_i hkind
        exact (declares (Or.inr (Or.inr ⟨hkind, ht⟩)) (by simp) hrest).cons
      · rename_i hkind
        split
        · refine ⟨[t], rfl, ?_⟩
          simpa [Term.toNode, Form.toNode] using
            Produces.simpleReturn (.returnNothing ⟨hkind, ht⟩)
        · refine Sound.cons (Sound.map (sound_expression hrest)
            (g := fun n => .tree "return_stmt" (some t.pos) [n]) (fun e => ?_) fun w n hw => ?_)
          · simp [Term.toNode, Form.toNode]
          · exact .simpleReturn (.returnValue ⟨hkind, ht⟩ hw)
      · rename_i hkind
        refine Sound.cons (Sound.map (sound_expression hrest)
          (g := fun n => .tree "throw_stmt" (some t.pos) [n]) (fun e => ?_) fun w n hw => ?_)
        · simp [Term.toNode, Form.toNode]
        · exact .simpleThrow (.throwValue ⟨hkind, ht⟩ hw)
      -- An expression is the only statement whose place is not that of a word before it.
      · refine Sound.map_along (sound_expression hts) (fun w behind e hread hw => ?_)
          fun w n hw => ⟨_, .expressionStatement hw⟩
        have hstart : startOf w = some t.pos := by
          rw [← startOf_append behind (nonempty_of_produces hw trivial), ← hread]
          rfl
        have hstatement := Produces.expressionStatement hw
        rw [hstart] at hstatement
        simpa [Term.toNode, Form.toNode] using hstatement
termination_by 32 * ts.length + 22
decreasing_by all_goals omega

end

end Phrase

end VariantScript.Syntax
