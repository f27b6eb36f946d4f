import VariantScript.Proofs.Reading.Steadiness.Choice
import VariantScript.Proofs.Reading.Steadiness.Parenthesis

/-!
# Phrases read one token ahead

No reader of expressions and statements depends on what stands behind the first token that it
leaves.
-/

namespace VariantScript.Syntax

open Grammar

namespace Phrase

open Outcome

variable {α β : Type} {r r' : List Token}

mutual

theorem steady_expression {r' : List Token} (ts : List Token) :
    SteadyAt r r' (fun ts => (expression ts).outcome) ts := by
  match ts with
  | [] => exact steadyAt_nil (by rw [outcome_expression]; rfl)
  | t :: rest =>
      have hlength : (t :: rest).length = rest.length + 1 := rfl
      by_cases hpar : t.kind = .lpar
      · exact (steady_parenthesis hpar (steady_conditional (t :: rest)) fun behind hlt =>
          steady_arrowBody behind).congr (outcome_expression_lpar hpar)
      · by_cases hname : t.kind = .name
        · have hshort : (rest.drop 1).length < (t :: rest).length := by
            simp only [List.length_drop, List.length_cons]
            omega
          have harrow (r' : List Token) : SteadyAt r r'
              (fun ts => (arrowBody (ts.drop 2)).outcome.map fun body =>
                Term.node (some t.pos) (.arrow ⟨some t.pos, [bindName t]⟩ body)) (t :: rest) :=
            (SteadyAt.behind_two (steady_arrowBody (rest.drop 1))).map _
          refine SteadyAt.congr (steadyAt_choice harrow (fun r' => steady_conditional (t :: rest))
            fun m hm heq hgm => ?_) (outcome_expression_name hname)
          -- With the name alone it is open whether an arrow follows; a second token decides.
          match m with
          | [b] =>
              obtain ⟨rfl, -⟩ : t = b ∧ rest = r := by simpa using heq
              have ht : t.Is .name := ⟨hname, (genuine_cons.1 hgm).1⟩
              exact Or.inr ⟨completes_arrow t _, completes_name ht⟩
          | b :: c :: m => exact Or.inl rfl
        · exact (steady_conditional (t :: rest)).congr (outcome_expression_other hname hpar)
termination_by 32 * ts.length + 20
decreasing_by all_goals omega

theorem steady_arrowBody {r' : List Token} (ts : List Token) :
    SteadyAt r r' (fun ts => (arrowBody ts).outcome) ts := by
  match ts with
  | [] => exact steadyAt_nil (by rw [outcome_arrowBody]; rfl)
  | t :: rest =>
      by_cases hbrace : t.kind = .lbrace
      · have hread (rest : List Token) : (arrowBody (t :: rest)).outcome =
            if opensRecord ((t :: rest).drop 1) then (expression (t :: rest)).outcome
            else (block (t :: rest)).outcome := by
          rw [outcome_arrowBody]
          by_cases hrecord : opensRecord rest <;> simp [hbrace, hrecord]
        refine SteadyAt.congr (steadyAt_choice (c := fun ts => opensRecord (ts.drop 1))
          (fun r' => steady_expression (t :: rest)) (fun r' => steady_block (t :: rest))
          fun m hm heq hgm => ?_) hread
        match m with
        | b :: m =>
            obtain ⟨rfl, rfl⟩ : t = b ∧ rest = m ++ r := by simpa using heq
            have ht : t.Is .lbrace := ⟨hbrace, (genuine_cons.1 hgm).1⟩
            have hm := (genuine_cons.1 hgm).2
            exact (opensRecord_same m r r').imp id fun h =>
              ⟨completes_record ht hm h, completes_block ht hm h⟩
      · exact (steady_expression (t :: rest)).congr fun rest => by
          simp only [outcome_arrowBody, hbrace, false_and, if_false]
termination_by 32 * ts.length + 22
decreasing_by all_goals omega

theorem steady_conditional {r' : List Token} (ts : List Token) :
    SteadyAt r r' (fun ts => (conditional ts).outcome) ts := by
  match ts with
  | [] => exact steadyAt_nil (by simp [outcome_conditional, outcome_chain, operand, Level.tighter?,
      outcome_unary, left])
  | t :: rest =>
      refine SteadyAt.congr (g := fun ts => (chain .or ts).outcome.andThen
        (conditionalRest (some t.pos))) ?_ fun rest => outcome_conditional (t :: rest)
      refine (steady_chain .or (t :: rest)).andThen fun condition behind hread => ?_
      have hlt := Reply.length_lt_of_outcome hread
      exact steady_conditionalRest fun more hmore => steady_expression more
termination_by 32 * ts.length + 18
decreasing_by
  · simp only [Level.rank]
    omega
  · omega

theorem steady_operand {r' : List Token} (l : Level) (ts : List Token) :
    SteadyAt r r' (fun ts => (operand l ts).outcome) ts := by
  unfold operand
  match h : l.tighter? with
  | some tighter => exact steady_chain tighter ts
  | none => exact steady_unary ts
termination_by 32 * ts.length + 3 + 2 * l.rank
decreasing_by
  all_goals try have := Level.rank_tighter h
  all_goals have := l.rank_pos
  all_goals omega

theorem steady_chain {r' : List Token} (l : Level) (ts : List Token) :
    SteadyAt r r' (fun ts => (chain l ts).outcome) ts := by
  match ts with
  | [] => exact steadyAt_nil (by cases l <;> simp [outcome_chain, operand, Level.tighter?,
      outcome_unary, left])
  | t :: rest =>
      refine SteadyAt.congr (g := fun ts => (operand l ts).outcome.andThen fun left behind =>
        (chainRest l (some t.pos) left behind).outcome) ?_ fun rest => outcome_chain l (t :: rest)
      refine (steady_operand l (t :: rest)).andThen fun left behind hread => ?_
      have hlt := Reply.length_lt_of_outcome hread
      exact steady_chainRest l (some t.pos) left behind
termination_by 32 * ts.length + 4 + 2 * l.rank
decreasing_by all_goals omega

theorem steady_chainRest {r' : List Token} (l : Level) (start : Option Position) (e : Term)
    (ts : List Token) : SteadyAt r r' (fun ts => (chainRest l start e ts).outcome) ts := by
  match ts with
  | [] => exact steadyAt_nil (by rw [outcome_chainRest]; rfl)
  | op :: rest =>
      by_cases haccepts : l.accepts op.kind = true
      · refine SteadyAt.cons (g := fun rest => (operand l rest).outcome.andThen fun right behind =>
          (chainRest l start (.node start (l.combine op e right)) behind).outcome) ?_ fun rest => by
            rw [outcome_chainRest]
            simp only [if_pos haccepts]
        refine (steady_operand l rest).andThen fun right behind hread => ?_
        have hlt := Reply.length_lt_of_outcome hread
        exact steady_chainRest l start _ behind
      · exact (steadyAt_ok e (op :: rest)).congr fun rest => by
          rw [outcome_chainRest]
          simp only [if_neg haccepts]
termination_by 32 * ts.length
decreasing_by
  all_goals have : l.rank ≤ 6 := by cases l <;> decide
  all_goals simp only [List.length_cons] at *
  all_goals omega

theorem steady_unary {r' : List Token} (ts : List Token) :
    SteadyAt r r' (fun ts => (unary ts).outcome) ts := by
  match ts with
  | [] => exact steadyAt_nil (by rw [outcome_unary]; rfl)
  | t :: rest =>
      have hlength : (t :: rest).length = rest.length + 1 := rfl
      by_cases hbang : t.kind = .bang
      · exact ((steady_unary rest).map fun e =>
          .node (some t.pos) (.unary .not t.pos e)).cons fun rest => by
            rw [outcome_unary]
            simp only [if_pos hbang]
      · by_cases hminus : t.kind = .minus
        · exact ((steady_unary rest).map fun e =>
            .node (some t.pos) (.unary .negate t.pos e)).cons fun rest => by
              rw [outcome_unary]
              simp only [if_neg hbang, if_pos hminus]
        · refine SteadyAt.congr (g := fun ts => (primary ts).outcome.andThen fun e behind =>
            (postfixRest (some t.pos) e behind).outcome) ?_ fun rest => by
              rw [outcome_unary]
              simp only [if_neg hbang, if_neg hminus]
          refine (steady_primary (t :: rest)).andThen fun e behind hread => ?_
          have hlt := Reply.length_lt_of_outcome hread
          exact steady_postfixRest (some t.pos) e behind
termination_by 32 * ts.length + 4
decreasing_by all_goals omega

theorem steady_postfixRest {r' : List Token} (start : Option Position) (e : Term)
    (ts : List Token) : SteadyAt r r' (fun ts => (postfixRest start e ts).outcome) ts := by
  match ts with
  | [] => exact steadyAt_nil (by rw [outcome_postfixRest]; rfl)
  | t :: rest =>
      have hlength : (t :: rest).length = rest.length + 1 := rfl
      by_cases hpar : t.kind = .lpar
      · refine SteadyAt.cons (g := fun rest => (expressions .rpar rest).outcome.andThen
          fun args behind => (postfixRest start (.node start (.call e args)) behind).outcome) ?_
          fun rest => by
            rw [outcome_postfixRest]
            simp only [if_pos hpar]
        refine (steady_expressions .rpar rest).andThen fun args behind hread => ?_
        have hlt := Reply.length_lt_of_outcome hread
        exact steady_postfixRest start _ behind
      · by_cases hdot : t.kind = .dot
        · refine SteadyAt.cons (g := fun rest => (token .name rest).andThen fun name behind =>
            (postfixRest start (.node start (.member e name.spelled)) behind).outcome) ?_
            fun rest => by
              rw [outcome_postfixRest]
              simp only [if_neg hpar, if_pos hdot]
          refine (steady_token .name rest).andThen fun name behind hread => ?_
          have hlt := token_short hread
          exact steady_postfixRest start _ behind
        · by_cases hsqb : t.kind = .lsqb
          · refine SteadyAt.cons (g := fun rest => (expression rest).outcome.andThen fun i behind =>
              (token .rsqb behind).andThen fun _ more =>
                (postfixRest start (.node start (.index e i)) more).outcome) ?_ fun rest => by
                  rw [outcome_postfixRest]
                  simp only [if_neg hpar, if_neg hdot, if_pos hsqb]
            refine (steady_expression rest).andThen fun i behind hread => ?_
            have hlt := Reply.length_lt_of_outcome hread
            refine (steady_token .rsqb behind).andThen fun _ more hmore => ?_
            have hlt' := token_short hmore
            exact steady_postfixRest start _ more
          · exact (steadyAt_ok e (t :: rest)).congr fun rest => by
              rw [outcome_postfixRest]
              simp only [if_neg hpar, if_neg hdot, if_neg hsqb]
termination_by 32 * ts.length
decreasing_by all_goals omega

theorem steady_primary {r' : List Token} (ts : List Token) :
    SteadyAt r r' (fun ts => (primary ts).outcome) ts := by
  match ts with
  | [] => exact steadyAt_nil (by rw [outcome_primary]; rfl)
  | t :: rest =>
      have hlength : (t :: rest).length = rest.length + 1 := rfl
      have alone (f : Form) (h : ∀ rest, (primary (t :: rest)).outcome =
          .ok (.node (some t.pos) f, rest)) :
          SteadyAt r r' (fun ts => (primary ts).outcome) (t :: rest) :=
        (steadyAt_ok (.node (some t.pos) f) rest).cons h
      have refused (h : ∀ rest, (primary (t :: rest)).outcome = .error (t :: rest)) :
          SteadyAt r r' (fun ts => (primary ts).outcome) (t :: rest) :=
        (steadyAt_error (t :: rest)).congr h
      cases hkind : t.kind with
      | number => exact alone (.number t.spelled) fun rest => by simp only [outcome_primary, hkind]
      | string => exact alone (.string t.spelled) fun rest => by simp only [outcome_primary, hkind]
      | name => exact alone (.reference t.spelled) fun rest => by simp only [outcome_primary, hkind]
      | lsqb =>
          exact ((steady_expressions .rsqb rest).map fun es =>
            .node (some t.pos) (.array es)).cons fun rest => by simp only [outcome_primary, hkind]
      | lbrace =>
          exact ((steady_fields rest).map fun fs =>
            .node (some t.pos) (.record fs)).cons fun rest => by simp only [outcome_primary, hkind]
      | lpar =>
          refine SteadyAt.cons (g := fun rest => (expression rest).outcome.andThen fun e behind =>
            (token .rpar behind).map fun _ => e) ?_
            fun rest => by simp only [outcome_primary, hkind]
          exact (steady_expression rest).andThen fun e behind _ => (steady_token .rpar behind).map _
      | keyword word =>
          cases word with
          | trueWord => exact alone (.truth true) fun rest => by simp only [outcome_primary, hkind]
          | falseWord =>
              exact alone (.truth false) fun rest => by simp only [outcome_primary, hkind]
          | functionWord =>
              refine SteadyAt.cons (g := fun rest => (params rest).outcome.andThen fun ps behind =>
                (block behind).outcome.map fun body =>
                  .node (some t.pos) (.functionExpression ps body)) ?_ fun rest => by
                    simp only [outcome_primary, hkind]
              refine (steady_params rest).andThen fun ps behind hread => ?_
              have hlt := Reply.length_lt_of_outcome hread
              exact (steady_block behind).map _
          | _ => exact refused fun rest => by simp only [outcome_primary, hkind]
      | _ => exact refused fun rest => by simp only [outcome_primary, hkind]
termination_by 32 * ts.length
decreasing_by all_goals omega

theorem steady_expressions {r' : List Token} (close : TokenKind) (ts : List Token) :
    SteadyAt r r' (fun ts => (expressions close ts).outcome) ts := by
  rw [funext (outcome_expressions close)]
  exact steady_itemsStep (fun _ => steady_expression ts) fun more hlt =>
    steady_expressions close more
termination_by 32 * ts.length + 22
decreasing_by all_goals omega

theorem steady_fields {r' : List Token} (ts : List Token) :
    SteadyAt r r' (fun ts => (fields ts).outcome) ts := by
  rw [funext outcome_fields]
  exact steady_itemsStep (fun _ => steady_field ts) fun more hlt => steady_fields more
termination_by 32 * ts.length + 2
decreasing_by all_goals omega

theorem steady_field {r' : List Token} (ts : List Token) :
    SteadyAt r r' (fun ts => (field ts).outcome) ts := by
  simp only [outcome_field]
  exact steady_fieldStep fun more hlt => steady_expression more
termination_by 32 * ts.length
decreasing_by all_goals omega

theorem steady_block {r' : List Token} (ts : List Token) :
    SteadyAt r r' (fun ts => (block ts).outcome) ts := by
  simp only [outcome_block]
  refine (steady_token .lbrace ts).andThen fun t rest hread => ?_
  have hlt := token_short hread
  exact (steady_statements rest).andThen fun body behind _ => (steady_token .rbrace behind).map _
termination_by 32 * ts.length
decreasing_by all_goals omega

theorem steady_statements {r' : List Token} (ts : List Token) :
    SteadyAt r r' (fun ts => (statements ts).outcome) ts := by
  match ts with
  | [] => exact steadyAt_nil (by rw [outcome_statements]; rfl)
  | t :: rest =>
      have hlength : (t :: rest).length = rest.length + 1 := rfl
      have function (r' : List Token) : SteadyAt r r' (fun ts =>
          (functionDeclaration ts).outcome.andThen fun s behind =>
            (statements behind).outcome.map (s :: ·)) (t :: rest) := by
        refine (steady_functionDeclaration (t :: rest)).andThen fun s behind hread => ?_
        have hlt := Reply.length_lt_of_outcome hread
        exact (steady_statements behind).map _
      have simple (r' : List Token) : SteadyAt r r' (fun ts =>
          (simpleStatement ts).outcome.andThen statementsRest) (t :: rest) := by
        refine (steady_simpleStatement (t :: rest)).andThen fun s behind hread => ?_
        have hlt := Reply.length_lt_of_outcome hread
        exact steady_statementsRest s fun more hmore => steady_statements more
      by_cases hsemicolon : t.kind = .semicolon
      · exact (steady_statements rest).cons fun rest => by
          rw [outcome_statements]
          simp only [if_pos hsemicolon]
      · by_cases hbrace : t.kind = .rbrace
        · exact (steadyAt_ok [] (t :: rest)).congr fun rest => by
            rw [outcome_statements]
            simp only [if_neg hsemicolon, if_pos hbrace]
        · by_cases hif : t.kind = .keyword .ifWord
          · refine SteadyAt.congr (g := fun ts => (ifStatement ts).outcome.andThen fun s behind =>
              (statements behind).outcome.map (s :: ·)) ?_ fun rest => by
                rw [outcome_statements]
                simp only [if_neg hsemicolon, if_neg hbrace, if_pos hif]
            refine (steady_ifStatement (t :: rest)).andThen fun s behind hread => ?_
            have hlt := Reply.length_lt_of_outcome hread
            exact (steady_statements behind).map _
          · by_cases hfunction : t.kind = .keyword .functionWord
            · have hread (rest : List Token) : (statements (t :: rest)).outcome =
                  if namesFunction ((t :: rest).drop 1) then
                    (functionDeclaration (t :: rest)).outcome.andThen fun s behind =>
                      (statements behind).outcome.map (s :: ·)
                  else (simpleStatement (t :: rest)).outcome.andThen statementsRest := by
                rw [outcome_statements]
                simp only [hfunction, true_and]
                rfl
              refine SteadyAt.congr (steadyAt_choice (c := fun ts => namesFunction (ts.drop 1))
                function simple fun m hm heq hgm => ?_) hread
              -- With the word alone it is open whether a name follows.
              match m with
              | [b] =>
                  obtain ⟨rfl, -⟩ : t = b ∧ rest = r := by simpa using heq
                  have ht : t.Is (.keyword .functionWord) := ⟨hfunction, (genuine_cons.1 hgm).1⟩
                  exact Or.inr ⟨completes_declared ht, completes_called ht⟩
              | b :: c :: m => exact Or.inl rfl
            · exact (simple r').congr fun rest => by
                rw [outcome_statements]
                simp only [if_neg hsemicolon, if_neg hbrace, if_neg hif, hfunction, false_and,
                  if_false]
termination_by 32 * ts.length + 24
decreasing_by all_goals omega

theorem steady_ifStatement {r' : List Token} (ts : List Token) :
    SteadyAt r r' (fun ts => (ifStatement ts).outcome) ts := by
  simp only [outcome_ifStatement]
  refine (steady_token (.keyword .ifWord) ts).andThen fun t afterIf hread => ?_
  have hltIf := token_short hread
  refine (steady_token .lpar afterIf).andThen fun _ inside hread => ?_
  have hltInside := token_short hread
  refine (steady_expression inside).andThen fun condition behindCondition hread => ?_
  have hltCondition := Reply.length_lt_of_outcome hread
  refine (steady_token .rpar behindCondition).andThen fun _ opening hread => ?_
  have hltOpening := token_short hread
  refine (steady_block opening).andThen fun yes behind hread => ?_
  have hltYes := Reply.length_lt_of_outcome hread
  match behind with
  | [] => exact steadyAt_nil rfl
  | e :: rest =>
      have hlength : (e :: rest).length = rest.length + 1 := rfl
      by_cases helse : e.kind = .keyword .elseWord
      · have other : SteadyAt r r' (fun rest =>
            if startsIf rest then (ifStatement rest).outcome else (block rest).outcome) rest := by
          refine steadyAt_choice (fun r' => steady_ifStatement rest) (fun r' => steady_block rest)
            fun m hm _ _ => ?_
          -- The choice looks at the first token, which both have.
          match m with
          | b :: m => exact Or.inl rfl
        exact (other.map fun no => .node (some t.pos) (.ifThenElse condition yes no)).cons
          fun rest => by simp only [ifRest, if_pos helse]
      · exact (steadyAt_ok (.node (some t.pos) (.ifThen condition yes)) (e :: rest)).congr
          fun rest => by simp only [ifRest, if_neg helse]
termination_by 32 * ts.length
decreasing_by all_goals omega

theorem steady_functionDeclaration {r' : List Token} (ts : List Token) :
    SteadyAt r r' (fun ts => (functionDeclaration ts).outcome) ts := by
  simp only [outcome_functionDeclaration]
  refine (steady_token (.keyword .functionWord) ts).andThen fun t afterWord hread => ?_
  have hltWord := token_short hread
  refine (steady_token .name afterWord).andThen fun name afterName hread => ?_
  have hltName := token_short hread
  refine (steady_params afterName).andThen fun ps behind hread => ?_
  have hlt := Reply.length_lt_of_outcome hread
  exact (steady_block behind).map _
termination_by 32 * ts.length
decreasing_by all_goals omega

theorem steady_simpleStatement {r' : List Token} (ts : List Token) :
    SteadyAt r r' (fun ts => (simpleStatement ts).outcome) ts := by
  match ts with
  | [] => exact steadyAt_nil (by rw [outcome_simpleStatement]; rfl)
  | t :: rest =>
      have hlength : (t :: rest).length = rest.length + 1 := rfl
      have declares : SteadyAt r r' (fun rest => (pattern rest).outcome.andThen fun p behind =>
          (token .equal behind).andThen fun _ more =>
            (expression more).outcome.map fun e => Term.node (some t.pos) (.declaration p e))
          rest := by
        refine (steady_pattern rest).andThen fun p behind hread => ?_
        have hlt := Reply.length_lt_of_outcome hread
        refine (steady_token .equal behind).andThen fun _ more hread => ?_
        have hlt' := token_short hread
        exact (steady_expression more).map _
      have states (h : ∀ rest, (simpleStatement (t :: rest)).outcome =
          (expression (t :: rest)).outcome.map fun e =>
            .node (some t.pos) (.expressionStatement e)) :
          SteadyAt r r' (fun ts => (simpleStatement ts).outcome) (t :: rest) :=
        ((steady_expression (t :: rest)).map fun e =>
          .node (some t.pos) (.expressionStatement e)).congr h
      cases hkind : t.kind with
      | keyword word =>
          cases word with
          | constWord | letWord | varWord =>
              exact declares.cons fun rest => by simp only [outcome_simpleStatement, hkind]
          | returnWord =>
              refine SteadyAt.cons (g := fun rest => if endsStatement rest then
                .ok (.node (some t.pos) .returnNothing, rest)
                else (expression rest).outcome.map fun e => .node (some t.pos) (.returnValue e)) ?_
                fun rest => by simp only [outcome_simpleStatement, hkind]
              -- Whether a value follows is told by the next token, which both have.
              refine steadyAt_choice (fun r' => steadyAt_ok _ rest)
                (fun r' => (steady_expression rest).map _) fun m hm _ _ => ?_
              match m with
              | b :: m => exact Or.inl rfl
          | throwWord =>
              exact ((steady_expression rest).map fun e =>
                .node (some t.pos) (.throwValue e)).cons fun rest => by
                  simp only [outcome_simpleStatement, hkind]
          | _ => exact states fun rest => by simp only [outcome_simpleStatement, hkind]
      | _ => exact states fun rest => by simp only [outcome_simpleStatement, hkind]
termination_by 32 * ts.length + 22
decreasing_by all_goals omega

end

end Phrase

end VariantScript.Syntax
