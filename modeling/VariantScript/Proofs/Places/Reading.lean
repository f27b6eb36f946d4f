import VariantScript.Proofs.Places.Unplaced
import VariantScript.Proofs.Reading.Outcome
import VariantScript.Syntax.Program

/-!
# Reading does not depend on places

Readers look at the kinds and texts of tokens and hand on their places.  So tokens without their
places are read as the same phrase without its places, or refused at the same token.
-/

namespace VariantScript.Syntax

namespace Outcome

variable {α β : Type} {f : α → α} {f' : β → β} {o o' : Outcome α}

/-- The outcome without places, where `f` takes them from phrases. -/
def unplaced (f : α → α) : Outcome α → Outcome α
  | .ok (x, rest) => .ok (f x, rest.map Token.unplaced)
  | .error rest => .error (rest.map Token.unplaced)

/-- One outcome is the other without places. -/
def Forgets (f : α → α) (o o' : Outcome α) : Prop :=
  o' = o.unplaced f

theorem forgets_ok (x : α) (rest : List Token) :
    Forgets f (.ok (x, rest)) (.ok (f x, rest.map Token.unplaced)) := rfl

theorem forgets_error (rest : List Token) :
    Forgets f (.error rest) (.error (rest.map Token.unplaced)) := rfl

theorem Forgets.map {g g' : α → β} (h : Forgets f o o') (hg : ∀ x, g' (f x) = f' (g x)) :
    Forgets f' (o.map g) (o'.map g') := by
  obtain rfl := h
  cases o with
  | ok p =>
      obtain ⟨x, rest⟩ := p
      simp only [Forgets, Outcome.unplaced, map_ok, hg]
  | error rest => rfl

theorem Forgets.andThen {k k' : α → List Token → Outcome β} (h : Forgets f o o')
    (hk : ∀ x rest, o = .ok (x, rest) →
      Forgets f' (k x rest) (k' (f x) (rest.map Token.unplaced))) :
    Forgets f' (o.andThen k) (o'.andThen k') := by
  obtain rfl := h
  cases o with
  | ok p => exact hk p.1 p.2 rfl
  | error rest => rfl

theorem Forgets.orFurther (h : Forgets f o o') (other : List Token) :
    Forgets f (o.orFurther other) (o'.orFurther (other.map Token.unplaced)) := by
  obtain rfl := h
  cases o with
  | ok p => rfl
  | error rest =>
      simp only [Forgets, orFurther_error, unplaced, List.length_map]
      split <;> rfl

theorem Forgets.ite {c c' : Prop} [Decidable c] [Decidable c'] {a a' b b' : Outcome α}
    (hc : c' ↔ c) (ha : c → Forgets f a a') (hb : ¬ c → Forgets f b b') :
    Forgets f (if c then a else b) (if c' then a' else b') := by
  by_cases h : c
  · rw [if_pos h, if_pos (hc.2 h)]
    exact ha h
  · rw [if_neg h, if_neg fun h' => h (hc.1 h')]
    exact hb h

end Outcome

namespace Phrase

open Outcome

variable {α β : Type} {f : α → α}

/-! ## Looking ahead -/

theorem startOf_unplaced (ts : List Token) :
    startOf (ts.map Token.unplaced) = (startOf ts).map Position.unplaced := by
  cases ts <;> rfl

@[simp] theorem continuesOperand_unplaced (t : Token) :
    continuesOperand t.unplaced = continuesOperand t := rfl

theorem opensRecord_unplaced (ts : List Token) :
    opensRecord (ts.map Token.unplaced) = opensRecord ts := by
  match ts with
  | [] => rfl
  | [t] => rfl
  | t :: u :: [] => rfl
  | t :: u :: v :: rest => rfl

theorem namesFunction_unplaced (ts : List Token) :
    namesFunction (ts.map Token.unplaced) = namesFunction ts := by
  cases ts <;> rfl

theorem startsIf_unplaced (ts : List Token) : startsIf (ts.map Token.unplaced) = startsIf ts := by
  cases ts <;> rfl

theorem endsStatement_unplaced (ts : List Token) :
    endsStatement (ts.map Token.unplaced) = endsStatement ts := by
  cases ts <;> rfl

/-! ## Tokens, lists and fields -/

theorem forgets_token (kind : TokenKind) (ts : List Token) :
    Forgets Token.unplaced (token kind ts) (token kind (ts.map Token.unplaced)) := by
  cases ts with
  | nil => exact forgets_error []
  | cons t rest =>
      exact .ite Iff.rfl (fun _ => forgets_ok t rest) fun _ => forgets_error (t :: rest)

theorem forgets_itemsRest {close : TokenKind} {items : List Token → Outcome (List α)} (x : α)
    (behind : List Token)
    (hitems : ∀ more, more.length < behind.length →
      Forgets (List.map f) (items more) (items (more.map Token.unplaced))) :
    Forgets (List.map f) (itemsRest close items x behind)
      (itemsRest close items (f x) (behind.map Token.unplaced)) := by
  cases behind with
  | nil => exact forgets_error []
  | cons u more =>
      refine .ite Iff.rfl (fun _ => ?_) fun _ => ?_
      · exact (hitems more (by simp)).map fun _ => rfl
      · exact .ite Iff.rfl (fun _ => forgets_ok [x] more) fun _ => forgets_error (u :: more)

theorem forgets_itemsStep {close : TokenKind} {item : (ts : List Token) → Reply α ts.length}
    {items : List Token → Outcome (List α)} (ts : List Token)
    (hitem : ts ≠ [] →
      Forgets f (item ts).outcome (item (ts.map Token.unplaced)).outcome)
    (hitems : ∀ more, more.length < ts.length →
      Forgets (List.map f) (items more) (items (more.map Token.unplaced))) :
    Forgets (List.map f) (itemsStep close (fun ts => (item ts).outcome) items ts)
      (itemsStep close (fun ts => (item ts).outcome) items (ts.map Token.unplaced)) := by
  cases ts with
  | nil => exact forgets_error []
  | cons t rest =>
      refine .ite Iff.rfl (fun _ => forgets_ok [] rest) fun _ => ?_
      refine (hitem (by simp)).andThen fun x behind hread => ?_
      have hlt := Reply.length_lt_of_outcome hread
      exact forgets_itemsRest x behind fun more hmore => hitems more (by omega)

theorem forgets_fieldStep {value : List Token → Outcome α} {make : Token → α → β}
    {shorthand : Token → β} {f' : β → β} (ts : List Token)
    (hvalue : ∀ more, more.length < ts.length →
      Forgets f (value more) (value (more.map Token.unplaced)))
    (hmake : ∀ t x, make t.unplaced (f x) = f' (make t x))
    (hshorthand : ∀ t : Token, shorthand t.unplaced = f' (shorthand t)) :
    Forgets f' (fieldStep value make shorthand ts)
      (fieldStep value make shorthand (ts.map Token.unplaced)) := by
  match ts with
  | [] => exact forgets_error []
  | [t] =>
      simp only [fieldStep, List.map_cons, List.map_nil, hshorthand]
      refine .ite Iff.rfl (fun _ => ?_) fun _ => forgets_error [t]
      exact .ite Iff.rfl (fun _ => forgets_ok (shorthand t) []) fun _ => forgets_error []
  | t :: u :: more =>
      have hlt : more.length < (t :: u :: more).length := by
        simp only [List.length_cons]
        omega
      simp only [fieldStep, List.map_cons, hshorthand]
      refine .ite Iff.rfl (fun _ => ?_) fun _ => forgets_error (t :: u :: more)
      refine .ite Iff.rfl (fun _ => (hvalue more hlt).map (hmake t)) fun _ => ?_
      exact .ite Iff.rfl (fun _ => forgets_ok (shorthand t) (u :: more)) fun _ =>
        forgets_error (u :: more)

/-! ## Patterns -/

@[simp] theorem keyOf_unplaced (t : Token) : keyOf t.unplaced = (keyOf t).unplaced := by
  by_cases hkind : t.kind = .string <;> simp [keyOf, Key.unplaced, hkind]

mutual

theorem forgets_pattern (ts : List Token) :
    Forgets Pattern.unplaced (pattern ts).outcome (pattern (ts.map Token.unplaced)).outcome := by
  rw [outcome_pattern, outcome_pattern]
  match ts with
  | [] => exact forgets_error []
  | t :: rest =>
      have hlength : (t :: rest).length = rest.length + 1 := rfl
      simp only [List.map_cons, Token.kind_unplaced]
      cases t.kind with
      | name => exact forgets_ok (bindName t) rest
      | lsqb => exact (forgets_patterns .rsqb rest).map fun ps => by simp
      | lbrace => exact (forgets_patternFields rest).map fun fs => by simp
      | _ => exact forgets_error (t :: rest)
termination_by 2 * ts.length
decreasing_by all_goals omega

theorem forgets_patterns (close : TokenKind) (ts : List Token) :
    Forgets (List.map Pattern.unplaced) (patterns close ts).outcome
      (patterns close (ts.map Token.unplaced)).outcome := by
  rw [outcome_patterns, outcome_patterns]
  exact forgets_itemsStep ts (fun _ => forgets_pattern ts) fun more hlt =>
    forgets_patterns close more
termination_by 2 * ts.length + 1
decreasing_by all_goals omega

theorem forgets_patternFields (ts : List Token) :
    Forgets (List.map PatternField.unplaced) (patternFields ts).outcome
      (patternFields (ts.map Token.unplaced)).outcome := by
  rw [outcome_patternFields, outcome_patternFields]
  exact forgets_itemsStep ts (fun _ => forgets_patternField ts) fun more hlt =>
    forgets_patternFields more
termination_by 2 * ts.length + 1
decreasing_by all_goals omega

theorem forgets_patternField (ts : List Token) :
    Forgets PatternField.unplaced (patternField ts).outcome
      (patternField (ts.map Token.unplaced)).outcome := by
  rw [outcome_patternField, outcome_patternField]
  exact forgets_fieldStep ts (fun more hlt => forgets_pattern more) (fun t p => by simp)
    fun t => rfl
termination_by 2 * ts.length
decreasing_by all_goals omega

end

theorem forgets_params (ts : List Token) :
    Forgets Params.unplaced (params ts).outcome (params (ts.map Token.unplaced)).outcome := by
  rw [outcome_params, outcome_params]
  exact (forgets_token .lpar ts).andThen fun t rest _ =>
    (forgets_patterns .rpar rest).map fun ps => rfl

/-! ## Expressions and statements -/

/-- What an operator makes of two operands does not depend on where they stand. -/
theorem combine_unplaced (l : Level) (op : Token) (left right : Term) :
    l.combine op.unplaced left.unplaced right.unplaced = (l.combine op left right).unplaced := by
  cases l <;> rfl

theorem forgets_conditionalRest {start : Option Position} (condition : Term) (behind : List Token)
    (hexpression : ∀ more, more.length < behind.length →
      Forgets Term.unplaced (expression more).outcome
        (expression (more.map Token.unplaced)).outcome) :
    Forgets Term.unplaced (conditionalRest start condition behind)
      (conditionalRest (start.map Position.unplaced) condition.unplaced
        (behind.map Token.unplaced)) := by
  cases behind with
  | nil => exact forgets_ok condition []
  | cons q rest =>
      refine .ite Iff.rfl (fun _ => ?_) fun _ => forgets_ok condition (q :: rest)
      refine (hexpression rest (by simp)).andThen fun yes more hread => ?_
      have hlt := Reply.length_lt_of_outcome hread
      refine (forgets_token .colon more).andThen fun _ other hread' => ?_
      have hlt' := token_short hread'
      exact (hexpression other (by simp only [List.length_cons]; omega)).map fun no => rfl

mutual

theorem forgets_expression (ts : List Token) :
    Forgets Term.unplaced (expression ts).outcome
      (expression (ts.map Token.unplaced)).outcome := by
  rw [outcome_expression, outcome_expression]
  match ts with
  | [] => exact forgets_error []
  | [t] => exact forgets_conditional [t]
  | t :: u :: rest =>
      have hlength : (t :: u :: rest).length = rest.length + 2 := rfl
      -- Both kinds of arrows have their body behind them.
      have hbody (ps : Params) (behind : List Token)
          (hlt : behind.length < (t :: u :: rest).length) :
          Forgets Term.unplaced
            ((arrowBody behind).outcome.map fun body => Term.node (some t.pos) (.arrow ps body))
            ((arrowBody (behind.map Token.unplaced)).outcome.map fun body =>
              Term.node (some t.pos.unplaced) (.arrow ps.unplaced body)) :=
        (forgets_arrowBody behind).map fun body => rfl
      have hconditional := forgets_conditional (t :: u :: rest)
      have hparams := forgets_params (t :: u :: rest)
      refine .ite Iff.rfl (fun _ => hbody ⟨some t.pos, [bindName t]⟩ rest (by omega)) fun _ => ?_
      refine .ite Iff.rfl (fun _ => ?_) fun _ => hconditional
      unfold Forgets at hparams
      rw [List.map_cons, List.map_cons] at hparams
      rw [hparams]
      cases hread : (params (t :: u :: rest)).outcome with
      | error behind => exact hconditional.orFurther behind
      | ok p =>
          obtain ⟨ps, behind⟩ := p
          cases behind with
          | nil => exact hconditional.orFurther []
          | cons a behind =>
              have hlt := Reply.length_lt_of_outcome hread
              refine .ite Iff.rfl (fun _ => ?_) fun _ => hconditional.orFurther (a :: behind)
              exact hbody ps behind (by simp only [List.length_cons] at hlt ⊢; omega)
termination_by 32 * ts.length + 20
decreasing_by all_goals (simp only [List.length_cons] at *; omega)

theorem forgets_arrowBody (ts : List Token) :
    Forgets Term.unplaced (arrowBody ts).outcome (arrowBody (ts.map Token.unplaced)).outcome := by
  rw [outcome_arrowBody, outcome_arrowBody]
  match ts with
  | [] => exact forgets_error []
  | t :: rest =>
      have hblock := forgets_block (t :: rest)
      have hexpression := forgets_expression (t :: rest)
      refine .ite ?_ (fun _ => hblock) fun _ => hexpression
      rw [opensRecord_unplaced, Token.kind_unplaced]
termination_by 32 * ts.length + 22
decreasing_by all_goals omega

theorem forgets_conditional (ts : List Token) :
    Forgets Term.unplaced (conditional ts).outcome
      (conditional (ts.map Token.unplaced)).outcome := by
  rw [outcome_conditional, outcome_conditional, startOf_unplaced]
  refine (forgets_chain .or ts).andThen fun condition behind hread => ?_
  have hlt := Reply.length_lt_of_outcome hread
  exact forgets_conditionalRest condition behind fun more _ => forgets_expression more
termination_by 32 * ts.length + 18
decreasing_by
  · simp only [Level.rank]
    omega
  · omega

theorem forgets_operand (l : Level) (ts : List Token) :
    Forgets Term.unplaced (operand l ts).outcome (operand l (ts.map Token.unplaced)).outcome := by
  unfold operand
  match h : l.tighter? with
  | some tighter => exact forgets_chain tighter ts
  | none => exact forgets_unary ts
termination_by 32 * ts.length + 3 + 2 * l.rank
decreasing_by
  all_goals try have := Level.rank_tighter h
  all_goals have := l.rank_pos
  all_goals omega

theorem forgets_chain (l : Level) (ts : List Token) :
    Forgets Term.unplaced (chain l ts).outcome (chain l (ts.map Token.unplaced)).outcome := by
  rw [outcome_chain, outcome_chain, startOf_unplaced]
  refine (forgets_operand l ts).andThen fun left behind hread => ?_
  have hlt := Reply.length_lt_of_outcome hread
  exact forgets_chainRest l (startOf ts) left behind
termination_by 32 * ts.length + 4 + 2 * l.rank
decreasing_by all_goals omega

theorem forgets_chainRest (l : Level) (start : Option Position) (left : Term) (ts : List Token) :
    Forgets Term.unplaced (chainRest l start left ts).outcome
      (chainRest l (start.map Position.unplaced) left.unplaced
        (ts.map Token.unplaced)).outcome := by
  rw [outcome_chainRest, outcome_chainRest]
  match ts with
  | [] => exact forgets_ok left []
  | op :: rest =>
      refine .ite Iff.rfl (fun _ => ?_) fun _ => forgets_ok left (op :: rest)
      refine (forgets_operand l rest).andThen fun right behind hread => ?_
      have hlt := Reply.length_lt_of_outcome hread
      rw [combine_unplaced]
      exact forgets_chainRest l start (.node start (l.combine op left right)) behind
termination_by 32 * ts.length
decreasing_by
  all_goals have : l.rank ≤ 6 := by cases l <;> decide
  all_goals simp only [List.length_cons] at *
  all_goals omega

theorem forgets_unary (ts : List Token) :
    Forgets Term.unplaced (unary ts).outcome (unary (ts.map Token.unplaced)).outcome := by
  rw [outcome_unary, outcome_unary]
  match ts with
  | [] => exact forgets_error []
  | t :: rest =>
      have hlength : (t :: rest).length = rest.length + 1 := rfl
      refine .ite Iff.rfl (fun _ => (forgets_unary rest).map fun e => rfl) fun _ => ?_
      refine .ite Iff.rfl (fun _ => (forgets_unary rest).map fun e => rfl) fun _ => ?_
      refine (forgets_primary (t :: rest)).andThen fun e behind hread => ?_
      have hlt := Reply.length_lt_of_outcome hread
      exact forgets_postfixRest (some t.pos) e behind
termination_by 32 * ts.length + 4
decreasing_by all_goals omega

theorem forgets_postfixRest (start : Option Position) (e : Term) (ts : List Token) :
    Forgets Term.unplaced (postfixRest start e ts).outcome
      (postfixRest (start.map Position.unplaced) e.unplaced (ts.map Token.unplaced)).outcome := by
  rw [outcome_postfixRest, outcome_postfixRest]
  match ts with
  | [] => exact forgets_ok e []
  | t :: rest =>
      have hlength : (t :: rest).length = rest.length + 1 := rfl
      refine .ite Iff.rfl (fun _ => ?_) fun _ => ?_
      · refine (forgets_expressions .rpar rest).andThen fun args behind hread => ?_
        have hlt := Reply.length_lt_of_outcome hread
        simpa using forgets_postfixRest start (.node start (.call e args)) behind
      refine .ite Iff.rfl (fun _ => ?_) fun _ => ?_
      · refine (forgets_token .name rest).andThen fun name behind hread => ?_
        have hlt := token_short hread
        exact forgets_postfixRest start (.node start (.member e name.spelled)) behind
      refine .ite Iff.rfl (fun _ => ?_) fun _ => forgets_ok e (t :: rest)
      refine (forgets_expression rest).andThen fun i behind hread => ?_
      have hlt := Reply.length_lt_of_outcome hread
      refine (forgets_token .rsqb behind).andThen fun _ more hread' => ?_
      have hlt' := token_short hread'
      exact forgets_postfixRest start (.node start (.index e i)) more
termination_by 32 * ts.length
decreasing_by all_goals omega

theorem forgets_primary (ts : List Token) :
    Forgets Term.unplaced (primary ts).outcome (primary (ts.map Token.unplaced)).outcome := by
  rw [outcome_primary, outcome_primary]
  match ts with
  | [] => exact forgets_error []
  | t :: rest =>
      have hlength : (t :: rest).length = rest.length + 1 := rfl
      have hfunction :
          Forgets Term.unplaced
            ((params rest).outcome.andThen fun ps behind =>
              (block behind).outcome.map fun body =>
                Term.node (some t.pos) (.functionExpression ps body))
            ((params (rest.map Token.unplaced)).outcome.andThen fun ps behind =>
              (block behind).outcome.map fun body =>
                Term.node (some t.pos.unplaced) (.functionExpression ps body)) := by
        refine (forgets_params rest).andThen fun ps behind hread => ?_
        have hlt := Reply.length_lt_of_outcome hread
        exact (forgets_block behind).map fun body => rfl
      simp only [List.map_cons, Token.kind_unplaced]
      cases t.kind with
      | number => exact forgets_ok (Term.node (some t.pos) (.number t.spelled)) rest
      | string => exact forgets_ok (Term.node (some t.pos) (.string t.spelled)) rest
      | name => exact forgets_ok (Term.node (some t.pos) (.reference t.spelled)) rest
      | lsqb => exact (forgets_expressions .rsqb rest).map fun es => by simp
      | lbrace => exact (forgets_fields rest).map fun fs => by simp
      | lpar =>
          exact (forgets_expression rest).andThen fun e behind _ =>
            (forgets_token .rpar behind).map fun _ => rfl
      | keyword word =>
          cases word with
          | trueWord => exact forgets_ok (Term.node (some t.pos) (.truth true)) rest
          | falseWord => exact forgets_ok (Term.node (some t.pos) (.truth false)) rest
          | functionWord => exact hfunction
          | _ => exact forgets_error (t :: rest)
      | _ => exact forgets_error (t :: rest)
termination_by 32 * ts.length
decreasing_by all_goals omega

theorem forgets_expressions (close : TokenKind) (ts : List Token) :
    Forgets (List.map Term.unplaced) (expressions close ts).outcome
      (expressions close (ts.map Token.unplaced)).outcome := by
  rw [outcome_expressions, outcome_expressions]
  exact forgets_itemsStep ts (fun _ => forgets_expression ts) fun more hlt =>
    forgets_expressions close more
termination_by 32 * ts.length + 22
decreasing_by all_goals omega

theorem forgets_fields (ts : List Token) :
    Forgets (List.map Field.unplaced) (fields ts).outcome
      (fields (ts.map Token.unplaced)).outcome := by
  rw [outcome_fields, outcome_fields]
  exact forgets_itemsStep ts (fun _ => forgets_field ts) fun more hlt => forgets_fields more
termination_by 32 * ts.length + 2
decreasing_by all_goals omega

theorem forgets_field (ts : List Token) :
    Forgets Field.unplaced (field ts).outcome (field (ts.map Token.unplaced)).outcome := by
  rw [outcome_field, outcome_field]
  exact forgets_fieldStep ts (fun more hlt => forgets_expression more) (fun t e => by simp)
    fun t => rfl
termination_by 32 * ts.length
decreasing_by all_goals omega

theorem forgets_block (ts : List Token) :
    Forgets Term.unplaced (block ts).outcome (block (ts.map Token.unplaced)).outcome := by
  rw [outcome_block, outcome_block]
  refine (forgets_token .lbrace ts).andThen fun t rest hread => ?_
  have hlt := token_short hread
  exact (forgets_statements rest).andThen fun body behind _ =>
    (forgets_token .rbrace behind).map fun _ => by simp
termination_by 32 * ts.length
decreasing_by all_goals omega

theorem forgets_statements (ts : List Token) :
    Forgets (List.map Term.unplaced) (statements ts).outcome
      (statements (ts.map Token.unplaced)).outcome := by
  rw [outcome_statements, outcome_statements]
  match ts with
  | [] => exact forgets_ok [] []
  | t :: rest =>
      have hlength : (t :: rest).length = rest.length + 1 := rfl
      have more (s : Term) (behind : List Token) (hlt : behind.length < (t :: rest).length) :
          Forgets (List.map Term.unplaced) ((statements behind).outcome.map (s :: ·))
            ((statements (behind.map Token.unplaced)).outcome.map (s.unplaced :: ·)) :=
        (forgets_statements behind).map fun body => rfl
      refine .ite Iff.rfl (fun _ => forgets_statements rest) fun _ => ?_
      refine .ite Iff.rfl (fun _ => forgets_ok [] (t :: rest)) fun _ => ?_
      refine .ite Iff.rfl (fun _ => ?_) fun _ => ?_
      · exact (forgets_ifStatement (t :: rest)).andThen fun s behind hread =>
          more s behind (Reply.length_lt_of_outcome hread)
      refine .ite ?_ (fun _ => ?_) fun _ => ?_
      · rw [namesFunction_unplaced, Token.kind_unplaced]
      · exact (forgets_functionDeclaration (t :: rest)).andThen fun s behind hread =>
          more s behind (Reply.length_lt_of_outcome hread)
      refine (forgets_simpleStatement (t :: rest)).andThen fun s behind hread => ?_
      have hlt := Reply.length_lt_of_outcome hread
      match behind with
      | [] => exact forgets_ok [s] []
      | u :: others =>
          refine .ite Iff.rfl (fun _ => ?_) fun _ => forgets_ok [s] (u :: others)
          exact more s others (by simp only [List.length_cons] at hlt ⊢; omega)
termination_by 32 * ts.length + 24
decreasing_by all_goals omega

theorem forgets_ifStatement (ts : List Token) :
    Forgets Term.unplaced (ifStatement ts).outcome
      (ifStatement (ts.map Token.unplaced)).outcome := by
  rw [outcome_ifStatement, outcome_ifStatement]
  refine (forgets_token (.keyword .ifWord) ts).andThen fun t afterIf hread => ?_
  have hltIf := token_short hread
  refine (forgets_token .lpar afterIf).andThen fun _ inside hread => ?_
  have hltInside := token_short hread
  refine (forgets_expression inside).andThen fun condition behindCondition hread => ?_
  have hltCondition := Reply.length_lt_of_outcome hread
  refine (forgets_token .rpar behindCondition).andThen fun _ opening hread => ?_
  have hltOpening := token_short hread
  refine (forgets_block opening).andThen fun yes behind hread => ?_
  have hltYes := Reply.length_lt_of_outcome hread
  match behind with
  | [] => exact forgets_ok (Term.node (some t.pos) (.ifThen condition yes)) []
  | e :: rest =>
      have hlength : (e :: rest).length = rest.length + 1 := rfl
      refine .ite Iff.rfl (fun _ => ?_) fun _ =>
        forgets_ok (Term.node (some t.pos) (.ifThen condition yes)) (e :: rest)
      -- Behind `else` stands another condition or a block.
      have hno : Forgets Term.unplaced
          (if startsIf rest then (ifStatement rest).outcome else (block rest).outcome)
          (if startsIf (rest.map Token.unplaced) then
            (ifStatement (rest.map Token.unplaced)).outcome
          else (block (rest.map Token.unplaced)).outcome) := by
        refine .ite ?_ (fun _ => forgets_ifStatement rest) fun _ => forgets_block rest
        rw [startsIf_unplaced]
      exact hno.map fun no => rfl
termination_by 32 * ts.length
decreasing_by all_goals omega

theorem forgets_functionDeclaration (ts : List Token) :
    Forgets Term.unplaced (functionDeclaration ts).outcome
      (functionDeclaration (ts.map Token.unplaced)).outcome := by
  rw [outcome_functionDeclaration, outcome_functionDeclaration]
  refine (forgets_token (.keyword .functionWord) ts).andThen fun t afterWord hread => ?_
  have hltWord := token_short hread
  refine (forgets_token .name afterWord).andThen fun name afterName hread => ?_
  have hltName := token_short hread
  refine (forgets_params afterName).andThen fun ps behind hread => ?_
  have hlt := Reply.length_lt_of_outcome hread
  exact (forgets_block behind).map fun body => rfl
termination_by 32 * ts.length
decreasing_by all_goals omega

theorem forgets_simpleStatement (ts : List Token) :
    Forgets Term.unplaced (simpleStatement ts).outcome
      (simpleStatement (ts.map Token.unplaced)).outcome := by
  rw [outcome_simpleStatement, outcome_simpleStatement]
  match ts with
  | [] => exact forgets_error []
  | t :: rest =>
      have hlength : (t :: rest).length = rest.length + 1 := rfl
      have declares :
          Forgets Term.unplaced
            ((pattern rest).outcome.andThen fun p behind =>
              (token .equal behind).andThen fun _ more =>
                (expression more).outcome.map fun e => Term.node (some t.pos) (.declaration p e))
            ((pattern (rest.map Token.unplaced)).outcome.andThen fun p behind =>
              (token .equal behind).andThen fun _ more =>
                (expression more).outcome.map fun e =>
                  Term.node (some t.pos.unplaced) (.declaration p e)) := by
        refine (forgets_pattern rest).andThen fun p behind hread => ?_
        have hlt := Reply.length_lt_of_outcome hread
        refine (forgets_token .equal behind).andThen fun _ more hread => ?_
        have hlt' := token_short hread
        exact (forgets_expression more).map fun e => rfl
      have hstatement :
          Forgets Term.unplaced
            ((expression (t :: rest)).outcome.map fun e =>
              Term.node (some t.pos) (.expressionStatement e))
            ((expression (t.unplaced :: rest.map Token.unplaced)).outcome.map fun e =>
              Term.node (some t.pos.unplaced) (.expressionStatement e)) :=
        (forgets_expression (t :: rest)).map fun e => rfl
      simp only [List.map_cons, Token.kind_unplaced]
      cases t.kind with
      | keyword word =>
          cases word with
          | constWord | letWord | varWord => exact declares
          | returnWord =>
              refine .ite ?_ (fun _ => forgets_ok (Term.node (some t.pos) .returnNothing) rest)
                fun _ => (forgets_expression rest).map fun e => rfl
              rw [endsStatement_unplaced]
          | throwWord => exact (forgets_expression rest).map fun e => rfl
          | _ => exact hstatement
      | _ => exact hstatement
termination_by 32 * ts.length + 22
decreasing_by all_goals omega

end

/-- Tokens that differ only in their places are read as statements that differ only in theirs. -/
theorem statements_alike {ts us : List Token} {body : List Term}
    (hus : us.map Token.unplaced = ts.map Token.unplaced)
    (hread : (statements ts).outcome = .ok (body, [])) :
    ∃ body', (statements us).outcome = .ok (body', []) ∧
      body'.map Term.unplaced = body.map Term.unplaced := by
  have hts := forgets_statements ts
  have hsame := forgets_statements us
  unfold Forgets at hts hsame
  rw [hus, hts, hread] at hsame
  cases h : (statements us).outcome with
  | error rest =>
      rw [h] at hsame
      cases hsame
  | ok p =>
      obtain ⟨body', rest⟩ := p
      rw [h] at hsame
      obtain ⟨hbody, hrest⟩ := Prod.mk.inj (Except.ok.inj hsame)
      obtain rfl : rest = [] := List.map_eq_nil_iff.1 hrest.symm
      exact ⟨body', rfl, hbody.symm⟩

end Phrase

/-- A text with the tokens of a program, up to places, is the program up to places. -/
theorem Program.read_alike {source : List Char} {ts : List Token} {body : List Term}
    (hts : (tokensOf source).1.map Token.unplaced = ts.map Token.unplaced)
    (hleft : (tokensOf source).2 = []) (hread : (Phrase.statements ts).outcome = .ok (body, [])) :
    ∃ u, read source = .ok u ∧ u.unplaced = (Term.node (startOf ts) (.program body)).unplaced := by
  obtain ⟨body', hread', hsame⟩ := Phrase.statements_alike hts hread
  have hstart := congrArg startOf hts
  rw [Phrase.startOf_unplaced, Phrase.startOf_unplaced] at hstart
  have hprogram : Phrase.program (tokensOf source).1 =
      .ok (.node (startOf (tokensOf source).1) (.program body')) := by
    rw [Phrase.program_eq, hread']
  refine ⟨.node (startOf (tokensOf source).1) (.program body'), ?_, ?_⟩
  · unfold read
    dsimp only
    rw [hprogram, hleft]
  · simp [hstart, hsame]

end VariantScript.Syntax
