import VariantScript.Proofs.Reading.Completeness.Part
import VariantScript.Proofs.Reading.Steadiness.Step

/-!
# Parentheses read one token ahead

An expression that starts with a parenthesis is read as parameters and as an operand.  Which of the
two it is shows at the arrow behind the parameters; an operand that ends before that is the same
wherever the parameters end.
-/

namespace VariantScript.Syntax

open Grammar

namespace Phrase

open Outcome

variable {α β : Type} {r r' : List Token}

/-! ## How expressions start -/

theorem steady_conditionalRest {start : Option Position} {condition : Term} {behind : List Token}
    (hexpression : ∀ more, more.length < behind.length →
      SteadyAt r r' (fun ts => (expression ts).outcome) more) :
    SteadyAt r r' (conditionalRest start condition) behind := by
  cases behind with
  | nil => exact steadyAt_nil rfl
  | cons q rest =>
      by_cases hq : q.kind = .qmark
      · refine SteadyAt.cons
          (g := fun rest => (expression rest).outcome.andThen fun yes behindYes =>
          (token .colon behindYes).andThen fun _ other =>
            (expression other).outcome.map fun no =>
              .node start (.conditional condition yes no)) ?_ fun rest => by
            simp only [conditionalRest, if_pos hq]
        refine (hexpression rest (by simp)).andThen fun yes behindYes hyes => ?_
        have hlt := Reply.length_lt_of_outcome hyes
        refine (steady_token .colon behindYes).andThen fun _ other hother => ?_
        have hlt' := token_short hother
        exact (hexpression other (by simp only [List.length_cons]; omega)).map _
      · exact (steadyAt_ok condition (q :: rest)).congr fun rest => by
          simp only [conditionalRest, if_neg hq]

/-- An opening parenthesis alone is no operand. -/
theorem outcome_conditional_lpar {t : Token} (ht : t.kind = .lpar) :
    (conditional [t]).outcome = .error [] := by
  simp [outcome_conditional, outcome_chain, operand, Level.tighter?, outcome_unary, outcome_primary,
    outcome_expression, ht]

theorem outcome_expression_lpar {t : Token} (ht : t.kind = .lpar) (rest : List Token) :
    (expression (t :: rest)).outcome =
      parenthesisStep t (params (t :: rest)).outcome (conditional (t :: rest)).outcome := by
  cases rest with
  | nil =>
      have hparams : (params [t]).outcome = .error [] := by
        rw [outcome_params]
        simp only [token, if_pos ht, andThen_ok]
        rw [outcome_patterns]
        rfl
      rw [outcome_expression, hparams]
      simp [parenthesisStep, outcome_conditional_lpar ht]
  | cons u rest =>
      rw [outcome_expression]
      simp [ht]

/-- Whether an arrow stands behind the first token. -/
def arrowSecond : List Token → Bool
  | _ :: u :: _ => u.kind = .arrow
  | _ => false

theorem outcome_expression_name {t : Token} (ht : t.kind = .name) (rest : List Token) :
    (expression (t :: rest)).outcome =
      if arrowSecond (t :: rest) then
        (arrowBody (rest.drop 1)).outcome.map fun body =>
          .node (some t.pos) (.arrow ⟨some t.pos, [bindName t]⟩ body)
      else (conditional (t :: rest)).outcome := by
  cases rest with
  | nil =>
      rw [outcome_expression]
      rfl
  | cons u rest =>
      rw [outcome_expression]
      by_cases hu : u.kind = .arrow
      · simp only [ht, hu, arrowSecond, and_self, decide_true, if_true]
        rfl
      · simp [ht, hu, arrowSecond]

theorem outcome_expression_other {t : Token} (hname : t.kind ≠ .name) (hpar : t.kind ≠ .lpar)
    (rest : List Token) :
    (expression (t :: rest)).outcome = (conditional (t :: rest)).outcome := by
  rw [outcome_expression]
  cases rest with
  | nil => rfl
  | cons u rest => simp [hname, hpar]

/-- Parameters that are found in one continuation of an operand are found in every other. -/
theorem params_elsewhere {t a : Token} {rest m m' behind : List Token} {e : Term} {ps : Params}
    (ht : t.kind = .lpar) (hts : Genuine (t :: rest)) (hother : Genuine (m ++ r'))
    (hm' : m' ≠ []) (heq : t :: rest = m ++ r)
    (hread : (conditional (t :: rest)).outcome = .ok (e, m' ++ r))
    (hparams : (params (m ++ r')).outcome = .ok (ps, a :: behind)) :
    r.length < (params (t :: rest)).outcome.left.length := by
  have hsound := sound_conditional hts
  rw [hread] at hsound
  obtain ⟨w, hw, hconditional⟩ := hsound
  have hsound := sound_params hother
  rw [hparams] at hsound
  obtain ⟨u, hu, hproduces⟩ := hsound
  obtain rfl : m = w ++ m' := by
    rw [heq, ← List.append_assoc] at hw
    exact List.append_cancel_right hw
  obtain ⟨t', v, rfl⟩ := List.exists_cons_of_ne_nil (nonempty_of_produces hconditional trivial)
  obtain rfl : t = t' := by simpa using (List.cons.inj hw).1
  rw [List.append_assoc] at hu
  -- The parameters end within the operand, so they stand in both continuations.
  obtain ⟨more, hmore, -⟩ := behind_params hconditional rfl ht hproduces hu
  obtain ⟨p, -, hfinds⟩ := found_of_produces hproduces
  have hw' : t :: rest = u ++ (more ++ (m' ++ r)) := by
    have hv : t :: v ++ (m' ++ r') = u ++ more ++ (m' ++ r') := by
      rw [hu, hmore, List.append_assoc]
    rw [hw, List.append_cancel_right hv, List.append_assoc]
  have hread : (params (t :: rest)).outcome = .ok (p, more ++ (m' ++ r)) := by
    rw [hw']
    refine hfinds _ ?_ trivial
    rw [hw'] at hts
    exact (genuine_append.1 hts).2
  have hpos := List.length_pos_iff.2 hm'
  rw [hread]
  simp only [left, List.length_append]
  omega

theorem parenthesisStep_arrow {t a : Token} {ps : Params} {behind : List Token}
    (ha : a.kind = .arrow) (operand : Outcome Term) :
    parenthesisStep t (.ok (ps, a :: behind)) operand =
      (arrowBody behind).outcome.map fun body => .node (some t.pos) (.arrow ps body) := by
  simp only [parenthesisStep, if_pos ha]

/-- Whether parameters were read and an arrow stands behind them. -/
def EndsAtArrow (parameters : Outcome Params) : Prop :=
  ∃ ps a behind, parameters = .ok (ps, a :: behind) ∧ a.kind = .arrow

theorem parenthesisStep_operand {t : Token} {parameters : Outcome Params}
    (h : ¬ EndsAtArrow parameters) (operand : Outcome Term) :
    parenthesisStep t parameters operand = operand.orFurther parameters.left := by
  match parameters with
  | .error behind => rfl
  | .ok (ps, []) => rfl
  | .ok (ps, a :: behind) =>
      have ha : a.kind ≠ .arrow := fun ha => h ⟨ps, a, behind, rfl, ha⟩
      simp only [parenthesisStep, if_neg ha, left]

/-- Parameters that are left before the tokens differ stand before an arrow in both places or in
neither. -/
theorem elsewhere_of_not_endsAtArrow {o : Outcome Params} {other : Option (Outcome Params)}
    {m : List Token} (hm : m ≠ []) (harrow : ¬ EndsAtArrow o)
    (h : (∃ ps, o = .ok (ps, m ++ r) ∧ other = some (.ok (ps, m ++ r'))) ∨
      (o = .error (m ++ r) ∧ other = some (.error (m ++ r')))) :
    o.left = m ++ r ∧ ∃ o', other = some o' ∧ ¬ EndsAtArrow o' ∧ o'.left = m ++ r' := by
  rcases h with ⟨ps, rfl, rfl⟩ | ⟨rfl, rfl⟩
  · refine ⟨rfl, _, rfl, ?_, rfl⟩
    rintro ⟨ps', a, behind, hps, ha⟩
    cases m with
    | nil => exact hm rfl
    | cons b m =>
        obtain ⟨rfl, rfl, -⟩ : ps = ps' ∧ b = a ∧ m ++ r' = behind := by simpa using hps
        exact harrow ⟨ps, b, m ++ r, rfl, ha⟩
  · refine ⟨rfl, _, rfl, ?_, rfl⟩
    rintro ⟨ps', a, behind, hps, -⟩
    cases hps

/-- A failure at the further of two places is steady if both places are. -/
theorem steady_orFurther {o o' : Outcome α} {m : List Token} (hm : m ≠ []) (hg : Genuine (m ++ r))
    (h : Steady r r' o (some o')) :
    Steady r r' (o.orFurther (m ++ r)) (some (o'.orFurther (m ++ r'))) := by
  obtain ⟨hgo, hs⟩ := h
  cases o with
  | ok p =>
      refine ⟨hgo, ?_⟩
      rcases hs with hs | ⟨m', hm', ⟨x, hx, hother⟩ | ⟨hx, -⟩⟩
      · exact Or.inl hs
      · obtain rfl : o' = .ok (x, m' ++ r') := by simpa using hother
        exact Or.inr ⟨m', hm', Or.inl ⟨x, hx, rfl⟩⟩
      · cases hx
  | error rest =>
      rw [orFurther_error]
      split
      -- Which failure lies further on is the same in both places, since the tokens behind either of
      -- them differ in length by the same amount.
      · rename_i hfurther
        refine ⟨hg, ?_⟩
        rcases hs with hs | ⟨m', hm', ⟨x, hx, -⟩ | ⟨hx, hother⟩⟩
        · simp only [left, List.length_append] at hs hfurther
          omega
        · cases hx
        · obtain rfl : rest = m' ++ r := by simpa using hx
          obtain rfl : o' = .error (m' ++ r') := by simpa using hother
          refine Or.inr ⟨m, hm, Or.inr ⟨rfl, ?_⟩⟩
          rw [orFurther_error, if_pos]
          simp only [List.length_append] at hfurther ⊢
          omega
      · rename_i hfurther
        refine ⟨hgo, ?_⟩
        rcases hs with hs | ⟨m', hm', ⟨x, hx, -⟩ | ⟨hx, hother⟩⟩
        · exact Or.inl hs
        · cases hx
        · obtain rfl : rest = m' ++ r := by simpa using hx
          obtain rfl : o' = .error (m' ++ r') := by simpa using hother
          refine Or.inr ⟨m', hm', Or.inr ⟨rfl, ?_⟩⟩
          rw [orFurther_error, if_neg]
          simp only [List.length_append] at hfurther ⊢
          omega

/-- Where the parameters end behind the first token that differs, an operand that ends before it is
taken, whatever stands there. -/
theorem steady_parenthesis_within {t : Token} {rest : List Token} (ht : t.kind = .lpar)
    {other : Option (List Token)} (hnear : Near r r' (t :: rest) other)
    (hconditional : Steady r r' (conditional (t :: rest)).outcome
      (other.map fun ts => (conditional ts).outcome))
    (hparams : (params (t :: rest)).outcome.left.length ≤ r.length)
    (hgenuine : Genuine (params (t :: rest)).outcome.left)
    (harrow : ¬ EndsAtArrow (params (t :: rest)).outcome) :
    Steady r r' (parenthesisStep t (params (t :: rest)).outcome (conditional (t :: rest)).outcome)
      (other.map fun ts => parenthesisStep t (params ts).outcome (conditional ts).outcome) := by
  rw [parenthesisStep_operand harrow]
  obtain ⟨hg, hs⟩ := hconditional
  cases hread : (conditional (t :: rest)).outcome with
  | error behind =>
      rw [hread] at hg
      rw [orFurther_error]
      split
      · exact ⟨hgenuine, Or.inl hparams⟩
      · refine ⟨hg, Or.inl ?_⟩
        show behind.length ≤ r.length
        omega
  | ok p =>
      rw [hread] at hg hs
      refine ⟨hg, ?_⟩
      rcases hs with hs | ⟨m', hm', ⟨x, hx, hother⟩ | ⟨hx, -⟩⟩
      · exact Or.inl hs
      · obtain ⟨ts, rfl, hread'⟩ := Option.map_eq_some_iff.1 hother
        refine Or.inr ⟨m', hm', Or.inl ⟨x, hx, ?_⟩⟩
        -- The operand ends before the tokens differ, so parameters that end at an arrow in the
        -- other place would have been found here as well.
        have helsewhere : ¬ EndsAtArrow (params ts).outcome := by
          rintro ⟨ps, a, behind, hps, -⟩
          generalize hts : t :: rest = ts' at hnear
          cases hnear with
          | before hm hts' hr' =>
              have hlt := params_elsewhere ht (hts ▸ hts')
                (genuine_append.2 ⟨(genuine_append.1 hts').1, hr'⟩) hm' hts (hread.trans hx) hps
              omega
        rw [Option.map_some, parenthesisStep_operand helsewhere, hread']
        rfl
      · cases hx

theorem steady_parenthesis {t : Token} {rest : List Token} (ht : t.kind = .lpar)
    (hconditional : SteadyAt r r' (fun ts => (conditional ts).outcome) (t :: rest))
    (hbody : ∀ behind, behind.length < (t :: rest).length →
      SteadyAt r r' (fun ts => (arrowBody ts).outcome) behind) :
    SteadyAt r r' (fun ts => parenthesisStep t (params ts).outcome (conditional ts).outcome)
      (t :: rest) := by
  intro other hnear
  have hc := hconditional other hnear
  obtain ⟨hgp, hp⟩ := steady_params (t :: rest) other hnear
  dsimp only at hgp hp
  -- With an arrow behind the parameters the operand does not matter; without one, it does, and the
  -- parameters only say how far another reading got.
  by_cases harrow : EndsAtArrow (params (t :: rest)).outcome
  · obtain ⟨ps, a, behind, hread, ha⟩ := harrow
    have hlt := Reply.length_lt_of_outcome hread
    have hnext : SteadyAt r r' (fun ts => (arrowBody (ts.drop 1)).outcome.map fun body =>
        Term.node (some t.pos) (.arrow ps body)) (a :: behind) :=
      ((hbody behind (by simp only [List.length_cons] at hlt ⊢; omega)).map _).cons fun _ => rfl
    dsimp only
    rw [hread] at hgp hp
    rw [hread, parenthesisStep_arrow ha]
    rcases hp with hp | ⟨m, hm, ⟨x, hx, hother⟩ | ⟨hx, -⟩⟩
    · exact (hnext none (.within hp hgp)).of_none _
    · obtain ⟨ts, rfl, hread'⟩ := Option.map_eq_some_iff.1 hother
      obtain ⟨rfl, hbehind⟩ : ps = x ∧ a :: behind = m ++ r := by simpa using hx
      rw [hbehind] at hnext hgp
      have hs := hnext _ (.before hm hgp hnear.genuine_end)
      cases m with
      | nil => exact absurd rfl hm
      | cons b m =>
          obtain ⟨rfl, rfl⟩ : a = b ∧ behind = m ++ r := by simpa using hbehind
          rw [Option.map_some, hread', List.cons_append, parenthesisStep_arrow ha]
          exact hs
    · cases hx
  · rcases hp with hp | ⟨m, hm, hp⟩
    · exact steady_parenthesis_within ht hnear hc hp hgp harrow
    · obtain ⟨hleft, _, hother, harrow', hleft'⟩ := elsewhere_of_not_endsAtArrow hm harrow hp
      obtain ⟨ts, rfl, rfl⟩ := Option.map_eq_some_iff.1 hother
      dsimp only
      rw [Option.map_some, parenthesisStep_operand harrow, parenthesisStep_operand harrow', hleft,
        hleft']
      rw [hleft] at hgp
      exact steady_orFurther hm hgp hc

end Phrase

end VariantScript.Syntax
