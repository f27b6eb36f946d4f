import VariantScript.Proofs.Evaluation.Scopes
import VariantScript.Proofs.Reading.Written.Phrase

/-!
# Statements that define names

The only statements of a text that define names in the scope they stand in, but for functions, are
declarations: their values define none, and what is behind a condition is a block or another
condition.
-/

namespace VariantScript.Syntax

/-- A statement that defines names only by being a declaration. -/
def Term.DefinesAsDeclared (t : Term) : Prop :=
  match t.form with
  | .declaration _ value => value.defines = []
  | _ => t.defines = []

theorem Term.DefinesAsDeclared.declaration_or {t : Term} (h : t.DefinesAsDeclared) :
    (∃ pos pattern value, t = .node pos (.declaration pattern value) ∧ value.defines = []) ∨
      (∀ pattern value, t.form ≠ .declaration pattern value) ∧ t.defines = [] := by
  obtain ⟨pos, form⟩ := t
  unfold DefinesAsDeclared at h
  split at h
  · rename_i pattern value hform
    exact .inl ⟨pos, pattern, value, congrArg (Term.node pos) hform, h⟩
  · rename_i hform
    exact .inr ⟨hform, h⟩

theorem Term.IsWritten.block_defines {t : Term} (h : t.IsWritten .block) : t.defines = [] := by
  cases h
  rfl

namespace Phrase

open Outcome

theorem defines_ifStatement {ts : List Token} (hts : Genuine ts) :
    (ifStatement ts).outcome.Gives fun t => t.defines = [] ∧ t.DefinesAsDeclared := by
  rw [outcome_ifStatement]
  apply (written_token (.keyword .ifWord) hts).andThen
  intro t afterIf hread _ hts
  have hltIf := token_short hread
  apply (written_token .lpar hts).andThen
  intro _ inside hread _ hts
  have hltInside := token_short hread
  apply (written_expression hts).andThen
  intro condition behindCondition hread hcondition hts
  have hltCondition := Reply.length_lt_of_outcome hread
  apply (written_token .rpar hts).andThen
  intro _ opening hread _ hts
  have hltOpening := token_short hread
  apply (written_block hts).andThen
  intro yes behind hread hyes hts
  have hltYes := Reply.length_lt_of_outcome hread
  have hthen : (Form.ifThen condition yes).defines = [] := by
    rw [Form.defines, hcondition.defines, hyes.block_defines]
    rfl
  have helse (no : Term) (hno : no.defines = []) :
      (Form.ifThenElse condition yes no).defines = [] := by
    rw [Form.defines, hcondition.defines, hyes.block_defines, hno]
    rfl
  cases behind with
  | nil => exact gives_ok ⟨hthen, hthen⟩ hts
  | cons e rest =>
      have hlength : (e :: rest).length = rest.length + 1 := rfl
      simp only [ifRest]
      split
      · split
        · exact (defines_ifStatement hts.tail).map fun no hno => ⟨helse no hno.1, helse no hno.1⟩
        · exact (written_block hts.tail).map fun no hno =>
            ⟨helse no hno.block_defines, helse no hno.block_defines⟩
      · exact gives_ok ⟨hthen, hthen⟩ hts
termination_by ts.length
decreasing_by all_goals omega

theorem defines_functionDeclaration {ts : List Token} (hts : Genuine ts) :
    (functionDeclaration ts).outcome.Gives Term.DefinesAsDeclared := by
  rw [outcome_functionDeclaration]
  apply (written_token (.keyword .functionWord) hts).andThen
  intro t afterWord _ _ hts
  apply (written_token .name hts).andThen
  intro name afterName _ _ hts
  apply (written_params hts).andThen
  intro ps behind _ _ hts
  exact (written_block hts).map fun body _ => rfl

theorem defines_simpleStatement {ts : List Token} (hts : Genuine ts) :
    (simpleStatement ts).outcome.Gives Term.DefinesAsDeclared := by
  rw [outcome_simpleStatement]
  cases ts with
  | nil => exact gives_error
  | cons t rest =>
      have hrest := hts.tail
      have declares : ((pattern rest).outcome.andThen fun p behind =>
          (token .equal behind).andThen fun _ more =>
            (expression more).outcome.map fun e => Term.node (some t.pos) (.declaration p e)).Gives
          Term.DefinesAsDeclared := by
        apply (written_pattern hrest).andThen
        intro p behind _ _ hbehind
        apply (written_token .equal hbehind).andThen
        intro _ more _ _ hmore
        exact (written_expression hmore).map fun e he => he.defines
      dsimp only
      split
      · exact declares
      · exact declares
      · exact declares
      · split
        · exact gives_ok rfl hrest
        · exact (written_expression hrest).map fun e he => he.defines
      · exact (written_expression hrest).map fun e he => he.defines
      · exact (written_expression hts).map fun e he => he.defines

theorem defines_statements {ts : List Token} (hts : Genuine ts) :
    (statements ts).outcome.Gives fun body => ∀ t ∈ body, t.DefinesAsDeclared := by
  rw [outcome_statements]
  cases htokens : ts with
  | nil => exact gives_ok (by simp) genuine_nil
  | cons t rest =>
      rw [htokens] at hts
      have hlength : ts.length = (t :: rest).length := by rw [htokens]
      have hrest : (t :: rest).length = rest.length + 1 := rfl
      have more {s : Term} (hs : s.DefinesAsDeclared) {behind : List Token}
          (hlt : behind.length < (t :: rest).length) (hbehind : Genuine behind) :
          ((statements behind).outcome.map (s :: ·)).Gives fun body =>
            ∀ t ∈ body, t.DefinesAsDeclared :=
        (defines_statements hbehind).map fun body hbody => by simpa using ⟨hs, hbody⟩
      dsimp only
      split
      · exact defines_statements hts.tail
      · split
        · exact gives_ok (by simp) hts
        · split
          · apply (defines_ifStatement hts).andThen
            intro s behind hread hs hbehind
            exact more hs.2 (Reply.length_lt_of_outcome hread) hbehind
          · split
            · apply (defines_functionDeclaration hts).andThen
              intro s behind hread hs hbehind
              exact more hs (Reply.length_lt_of_outcome hread) hbehind
            · apply (defines_simpleStatement hts).andThen
              intro s behind hread hs hbehind
              have hlt := Reply.length_lt_of_outcome hread
              cases behind with
              | nil => exact gives_ok (by simpa using hs) hbehind
              | cons u others =>
                  simp only [statementsRest]
                  split
                  · exact more hs (by simp only [List.length_cons] at hlt ⊢; omega) hbehind.tail
                  · exact gives_ok (by simpa using hs) hbehind
termination_by ts.length
decreasing_by all_goals omega

end Phrase

/-- The statements of a program define names only by being declarations. -/
theorem Program.definesAsDeclared_of_read {source : List Char} {t : Term}
    (hread : Program.read source = .ok t) :
    ∃ pos body, t = .node pos (.program body) ∧ ∀ s ∈ body, s.DefinesAsDeclared := by
  unfold Program.read at hread
  dsimp only at hread
  split at hread
  · rename_i hprogram _
    cases hread
    rw [Phrase.program_eq] at hprogram
    split at hprogram
    · rename_i body hstatements
      cases hprogram
      exact ⟨_, body, rfl, (Phrase.defines_statements (genuine_tokensOf source) _ _ hstatements).1⟩
    all_goals cases hprogram
  all_goals cases hread

end VariantScript.Syntax
