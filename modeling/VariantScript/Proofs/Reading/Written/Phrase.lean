import VariantScript.Proofs.Grammar.Genuine
import VariantScript.Proofs.Reading.Outcome
import VariantScript.Proofs.Reading.Written.Term

/-!
# Readers give terms from texts

Whatever is read from instances of tokens is a term that stands in a text.
-/

namespace VariantScript.Syntax

open Grammar

namespace Outcome

variable {α β : Type}

/-- What was read is good, and the tokens behind it are instances. -/
def Gives (o : Outcome α) (good : α → Prop) : Prop :=
  ∀ x rest, o = .ok (x, rest) → good x ∧ Genuine rest

theorem gives_ok {good : α → Prop} {x : α} {rest : List Token} (hx : good x)
    (hrest : Genuine rest) : Gives (.ok (x, rest)) good := by
  rintro _ _ ⟨⟩
  exact ⟨hx, hrest⟩

theorem gives_error {good : α → Prop} {rest : List Token} :
    Gives (.error rest) good := by
  rintro _ _ ⟨⟩

theorem Gives.mono {o : Outcome α} {good good' : α → Prop} (h : o.Gives good)
    (hgood : ∀ x, good x → good' x) : o.Gives good' :=
  fun x rest hread => (h x rest hread).imp (hgood x) id

theorem Gives.map {o : Outcome α} {good : α → Prop} {good' : β → Prop} {f : α → β}
    (h : o.Gives good) (hf : ∀ x, good x → good' (f x)) :
    (o.map f).Gives good' := by
  cases o with
  | error rest => exact gives_error
  | ok p =>
      obtain ⟨hx, hrest⟩ := h p.1 p.2 rfl
      exact gives_ok (hf _ hx) hrest

theorem Gives.andThen {o : Outcome α} {good : α → Prop} {good' : β → Prop}
    {k : α → List Token → Outcome β} (h : o.Gives good)
    (next : ∀ x rest, o = .ok (x, rest) → good x → Genuine rest →
      (k x rest).Gives good') : (o.andThen k).Gives good' := by
  cases o with
  | error rest => exact gives_error
  | ok p =>
      obtain ⟨hx, hrest⟩ := h p.1 p.2 rfl
      exact next p.1 p.2 rfl hx hrest

theorem Gives.orFurther {o : Outcome α} {good : α → Prop} (h : o.Gives good)
    (other : List Token) : (o.orFurther other).Gives good := by
  cases o with
  | error rest => exact gives_error
  | ok p => exact h

end Outcome

namespace Phrase

open Outcome

variable {α β : Type}

/-! ## Tokens, lists and fields -/

theorem written_token (kind : TokenKind) {ts : List Token} (hts : Genuine ts) :
    (token kind ts).Gives (·.Is kind) := by
  cases ts with
  | nil => exact gives_error
  | cons t rest =>
      simp only [token]
      split
      · rename_i hkind
        exact gives_ok (hts.is hkind) hts.tail
      · exact gives_error

theorem written_itemsRest {close : TokenKind} {items : List Token → Outcome (List α)}
    {good : α → Prop} {x : α} {behind : List Token} (hx : good x)
    (hbehind : Genuine behind)
    (hitems : ∀ more, more.length < behind.length → Genuine more →
      (items more).Gives fun xs => ∀ x ∈ xs, good x) :
    (itemsRest close items x behind).Gives fun xs => ∀ x ∈ xs, good x := by
  have hsingle : ∀ y ∈ [x], good y := by simpa using hx
  cases behind with
  | nil => exact gives_error
  | cons u more =>
      simp only [itemsRest]
      split
      · exact (hitems more (by simp) hbehind.tail).map fun xs hxs => by
          simpa using ⟨hx, hxs⟩
      · split
        · exact gives_ok hsingle hbehind.tail
        · exact gives_error

theorem written_itemsStep {close : TokenKind} {item : (ts : List Token) → Reply α ts.length}
    {items : List Token → Outcome (List α)} {good : α → Prop} {ts : List Token}
    (hts : Genuine ts)
    (hitem : ts ≠ [] → (item ts).outcome.Gives good)
    (hitems : ∀ more, more.length < ts.length → Genuine more →
      (items more).Gives fun xs => ∀ x ∈ xs, good x) :
    (itemsStep close (fun ts => (item ts).outcome) items ts).Gives
      fun xs => ∀ x ∈ xs, good x := by
  cases ts with
  | nil => exact gives_error
  | cons t rest =>
      simp only [itemsStep]
      split
      · exact gives_ok (by simp) hts.tail
      · refine (hitem (by simp)).andThen fun x behind hread hx hbehind => ?_
        have hlt := Reply.length_lt_of_outcome hread
        exact written_itemsRest hx hbehind fun more hmore => hitems more (by omega)

theorem isWritten_keyOf {t : Token} (ht : t.IsGenuine) (hkind : t.kind = .name ∨ t.kind = .string) :
    (keyOf t).IsWritten := by
  unfold keyOf Key.IsWritten
  rcases hkind with hkind | hkind
  · simp [hkind]
  · simpa [hkind, Token.IsGenuine, Token.spelled] using ht

theorem written_fieldStep {value : List Token → Outcome α} {make : Token → α → β}
    {shorthand : Token → β} {good : α → Prop} {good' : β → Prop} {ts : List Token}
    (hts : Genuine ts)
    (hvalue : ∀ more, more.length < ts.length → Genuine more →
      (value more).Gives good)
    (hmake : ∀ t x, (keyOf t).IsWritten → good x → good' (make t x))
    (hshorthand : ∀ t, t.Is .name → good' (shorthand t)) :
    (fieldStep value make shorthand ts).Gives good' := by
  match ts with
  | [] => exact gives_error
  | [t] =>
      simp only [fieldStep]
      split
      · split
        · rename_i hname
          exact gives_ok (hshorthand t (hts.is hname)) hts.tail
        · exact gives_error
      · exact gives_error
  | t :: u :: more =>
      simp only [fieldStep]
      split
      · rename_i hkey
        split
        · have hshort : more.length < (t :: u :: more).length := by
            simp only [List.length_cons]
            omega
          exact (hvalue more hshort hts.tail.tail).map fun x hx =>
            hmake t x (isWritten_keyOf hts.head hkey) hx
        · split
          · rename_i hname
            exact gives_ok (hshorthand t (hts.is hname)) hts.tail
          · exact gives_error
      · exact gives_error

/-! ## Patterns -/

mutual

theorem written_pattern {ts : List Token} (hts : Genuine ts) :
    (pattern ts).outcome.Gives Pattern.IsWritten := by
  rw [outcome_pattern]
  match ts with
  | [] => exact gives_error
  | t :: rest =>
      have hlength : (t :: rest).length = rest.length + 1 := rfl
      have hrest := hts.tail
      dsimp only
      split
      · exact gives_ok .name hrest
      · exact (written_patterns .rsqb hrest).map fun _ => .array
      · exact (written_patternFields hrest).map fun _ => .record
      · exact gives_error
termination_by 2 * ts.length
decreasing_by all_goals omega

theorem written_patterns (close : TokenKind) {ts : List Token} (hts : Genuine ts) :
    (patterns close ts).outcome.Gives fun ps => ∀ p ∈ ps, p.IsWritten := by
  rw [outcome_patterns]
  exact written_itemsStep hts (fun _ => written_pattern hts) fun more hlt hmore =>
    written_patterns close hmore
termination_by 2 * ts.length + 1
decreasing_by all_goals omega

theorem written_patternFields {ts : List Token} (hts : Genuine ts) :
    (patternFields ts).outcome.Gives fun fs => ∀ f ∈ fs, f.IsWritten := by
  rw [outcome_patternFields]
  exact written_itemsStep hts (fun _ => written_patternField hts) fun more hlt hmore =>
    written_patternFields hmore
termination_by 2 * ts.length + 1
decreasing_by all_goals omega

theorem written_patternField {ts : List Token} (hts : Genuine ts) :
    (patternField ts).outcome.Gives PatternField.IsWritten := by
  rw [outcome_patternField]
  exact written_fieldStep hts (fun more hlt hmore => written_pattern hmore)
    (fun t p hkey hp => .mk hkey hp) fun t _ => .mk trivial .name
termination_by 2 * ts.length
decreasing_by all_goals omega

end

theorem written_params {ts : List Token} (hts : Genuine ts) :
    (params ts).outcome.Gives Params.IsWritten := by
  rw [outcome_params]
  exact (written_token .lpar hts).andThen fun t rest _ _ hrest =>
    (written_patterns .rpar hrest).map fun ps hps => hps

/-! ## Expressions and statements -/

/-- What an operator makes of two operands. -/
theorem isWritten_combine {l : Level} {op : Token} {pos : Option Position} {left right : Term}
    (haccepts : l.accepts op.kind = true) (hop : op.IsGenuine)
    (hleft : left.IsWritten .expression)
    (hright : right.IsWritten .expression) :
    (Term.node pos (l.combine op left right)).IsWritten .expression := by
  cases l with
  | or | and => exact .logical hleft hright
  | equality =>
      have hkind : op.Is .eqOp := ⟨by simpa [Level.accepts] using haccepts, hop⟩
      refine .compare (fun text => ?_) hleft hright
      rcases eqOp_text hkind with h | h | h | h <;> simp [h, CompareOp.ofSpelling]
  | relation =>
      have hkind : op.Is .relOp := ⟨by simpa [Level.accepts] using haccepts, hop⟩
      refine .compare (fun text => ?_) hleft hright
      rcases relOp_text hkind with h | h | h | h <;> simp [h, CompareOp.ofSpelling]
  | sum =>
      have hkind : op.text = "+" ∨ op.text = "-" := by
        rcases Bool.or_eq_true_iff.1 haccepts with h | h
        · exact Or.inl (plus_text ⟨by simpa using h, hop⟩)
        · exact Or.inr (minus_text ⟨by simpa using h, hop⟩)
      refine .binary (fun text => ?_) hleft hright
      rcases hkind with h | h <;> simp [h, BinaryOp.ofSpelling]
  | product =>
      have hkind : op.Is .mulOp := ⟨by simpa [Level.accepts] using haccepts, hop⟩
      refine .binary (fun text => ?_) hleft hright
      rcases mulOp_text hkind with h | h | h <;> simp [h, BinaryOp.ofSpelling]

theorem written_conditionalRest {start : Option Position} {condition : Term} {behind : List Token}
    (hcondition : condition.IsWritten .expression) (hbehind : Genuine behind)
    (hexpression : ∀ more, more.length < behind.length → Genuine more →
      (expression more).outcome.Gives (Term.IsWritten .expression)) :
    (conditionalRest start condition behind).Gives
      (Term.IsWritten .expression) := by
  cases behind with
  | nil => exact gives_ok hcondition hbehind
  | cons q rest =>
      simp only [conditionalRest]
      split
      · refine (hexpression rest (by simp) hbehind.tail).andThen fun yes more hread hyes hmore => ?_
        have hlt := Reply.length_lt_of_outcome hread
        refine (written_token .colon hmore).andThen fun _ other hread' _ hother => ?_
        have hlt' := token_short hread'
        exact (hexpression other (by simp only [List.length_cons]; omega) hother).map fun no hno =>
          .conditional hcondition hyes hno
      · exact gives_ok hcondition hbehind

mutual

theorem written_expression {ts : List Token} (hts : Genuine ts) :
    (expression ts).outcome.Gives (Term.IsWritten .expression) := by
  rw [outcome_expression]
  match ts with
  | [] => exact gives_error
  | [t] => exact written_conditional hts
  | t :: u :: rest =>
      have hlength : (t :: u :: rest).length = rest.length + 2 := rfl
      -- Both kinds of arrows have their body behind them, which is a block or an expression.
      have hbody (ps : Params) (hps : ps.IsWritten) {behind : List Token}
          (hlt : behind.length < (t :: u :: rest).length) (hbehind : Genuine behind) :
          ((arrowBody behind).outcome.map fun body => Term.node (some t.pos) (.arrow ps body)).Gives
            (Term.IsWritten .expression) :=
        (written_arrowBody hbehind).map fun body ⟨role, hrole, hbody⟩ => .arrow hps hrole hbody
      dsimp only
      split
      · have hname : Params.IsWritten ⟨some t.pos, [bindName t]⟩ := by
          intro p hp
          rw [List.mem_singleton.1 hp]
          exact .name
        exact hbody _ hname (by simp only [List.length_cons]; omega) hts.tail.tail
      · split
        · have hconditional := written_conditional hts
          unfold parenthesisStep
          split
          · rename_i ps a behind hread
            obtain ⟨hps, hbehind⟩ := written_params hts _ _ hread
            have hlt := Reply.length_lt_of_outcome hread
            split
            · exact hbody ps hps (by simp only [List.length_cons] at hlt ⊢; omega) hbehind.tail
            · exact hconditional.orFurther _
          · exact hconditional.orFurther _
          · exact hconditional.orFurther _
        · exact written_conditional hts
termination_by 32 * ts.length + 20
decreasing_by all_goals omega

theorem written_arrowBody {ts : List Token} (hts : Genuine ts) :
    (arrowBody ts).outcome.Gives fun body =>
      ∃ role, (role = .block ∨ role = .expression) ∧ body.IsWritten role := by
  rw [outcome_arrowBody]
  match ts with
  | [] => exact gives_error
  | t :: rest =>
      dsimp only
      split
      · exact (written_block hts).mono fun body hbody => ⟨_, Or.inl rfl, hbody⟩
      · exact (written_expression hts).mono fun body hbody => ⟨_, Or.inr rfl, hbody⟩
termination_by 32 * ts.length + 22
decreasing_by all_goals omega

theorem written_conditional {ts : List Token} (hts : Genuine ts) :
    (conditional ts).outcome.Gives (Term.IsWritten .expression) := by
  rw [outcome_conditional]
  refine (written_chain .or hts).andThen fun condition behind hread hcondition hbehind => ?_
  have hlt := Reply.length_lt_of_outcome hread
  exact written_conditionalRest hcondition hbehind fun more _ hmore => written_expression hmore
termination_by 32 * ts.length + 18
decreasing_by
  · simp only [Level.rank]
    omega
  · omega

theorem written_operand (l : Level) {ts : List Token} (hts : Genuine ts) :
    (operand l ts).outcome.Gives (Term.IsWritten .expression) := by
  unfold operand
  match h : l.tighter? with
  | some tighter => exact written_chain tighter hts
  | none => exact written_unary hts
termination_by 32 * ts.length + 3 + 2 * l.rank
decreasing_by
  all_goals try have := Level.rank_tighter h
  all_goals have := l.rank_pos
  all_goals omega

theorem written_chain (l : Level) {ts : List Token} (hts : Genuine ts) :
    (chain l ts).outcome.Gives (Term.IsWritten .expression) := by
  rw [outcome_chain]
  refine (written_operand l hts).andThen fun left behind hread hleft hbehind => ?_
  have hlt := Reply.length_lt_of_outcome hread
  exact written_chainRest l (startOf ts) hleft hbehind
termination_by 32 * ts.length + 4 + 2 * l.rank
decreasing_by all_goals omega

theorem written_chainRest (l : Level) (start : Option Position) {e : Term} {ts : List Token}
    (he : e.IsWritten .expression) (hts : Genuine ts) :
    (chainRest l start e ts).outcome.Gives (Term.IsWritten .expression) := by
  rw [outcome_chainRest]
  match ts with
  | [] => exact gives_ok he hts
  | op :: rest =>
      dsimp only
      split
      · rename_i haccepts
        refine (written_operand l hts.tail).andThen fun right behind hread hright hbehind => ?_
        have hlt := Reply.length_lt_of_outcome hread
        exact written_chainRest l start
          (isWritten_combine haccepts hts.head he hright) hbehind
      · exact gives_ok he hts
termination_by 32 * ts.length
decreasing_by
  all_goals have : l.rank ≤ 6 := by cases l <;> decide
  all_goals simp only [List.length_cons] at *
  all_goals omega

theorem written_unary {ts : List Token} (hts : Genuine ts) :
    (unary ts).outcome.Gives (Term.IsWritten .expression) := by
  rw [outcome_unary]
  match ts with
  | [] => exact gives_error
  | t :: rest =>
      have hlength : (t :: rest).length = rest.length + 1 := rfl
      dsimp only
      split
      · exact (written_unary hts.tail).map fun e he => .unary (Or.inl rfl) he
      · split
        · exact (written_unary hts.tail).map fun e he => .unary (Or.inr rfl) he
        · refine (written_primary hts).andThen fun e behind hread he hbehind => ?_
          have hlt := Reply.length_lt_of_outcome hread
          exact written_postfixRest (some t.pos) he hbehind
termination_by 32 * ts.length + 4
decreasing_by all_goals omega

theorem written_postfixRest (start : Option Position) {e : Term} {ts : List Token}
    (he : e.IsWritten .expression) (hts : Genuine ts) :
    (postfixRest start e ts).outcome.Gives
      (Term.IsWritten .expression) := by
  rw [outcome_postfixRest]
  match ts with
  | [] => exact gives_ok he hts
  | t :: rest =>
      have hlength : (t :: rest).length = rest.length + 1 := rfl
      have hrest := hts.tail
      dsimp only
      split
      · refine (written_expressions .rpar hrest).andThen fun args behind hread hargs hbehind => ?_
        have hlt := Reply.length_lt_of_outcome hread
        exact written_postfixRest start (.call he hargs) hbehind
      · split
        · refine (written_token .name hrest).andThen fun name behind hread _ hbehind => ?_
          have hlt := token_short hread
          exact written_postfixRest start (.member he) hbehind
        · split
          · refine (written_expression hrest).andThen fun i behind hread hi hbehind => ?_
            have hlt := Reply.length_lt_of_outcome hread
            refine (written_token .rsqb hbehind).andThen fun _ more hread' _ hmore => ?_
            have hlt' := token_short hread'
            exact written_postfixRest start (.index he hi) hmore
          · exact gives_ok he hts
termination_by 32 * ts.length
decreasing_by all_goals omega

theorem written_primary {ts : List Token} (hts : Genuine ts) :
    (primary ts).outcome.Gives (Term.IsWritten .expression) := by
  rw [outcome_primary]
  match ts with
  | [] => exact gives_error
  | t :: rest =>
      have hlength : (t :: rest).length = rest.length + 1 := rfl
      have hrest := hts.tail
      have hgenuine := hts.head
      dsimp only
      split
      · rename_i hkind
        exact gives_ok (.number (by simpa [Token.IsGenuine, Token.spelled, hkind] using hgenuine))
          hrest
      · rename_i hkind
        exact gives_ok (.string (by simpa [Token.IsGenuine, Token.spelled, hkind] using hgenuine))
          hrest
      · exact gives_ok .reference hrest
      · exact gives_ok .truth hrest
      · exact gives_ok .truth hrest
      · exact (written_expressions .rsqb hrest).map fun es hes => .array hes
      · exact (written_fields hrest).map fun fs hfs => .record hfs
      · refine (written_params hrest).andThen fun ps behind hread hps hbehind => ?_
        have hlt := Reply.length_lt_of_outcome hread
        exact (written_block hbehind).map fun body hbody => .functionExpression hps hbody
      · exact (written_expression hrest).andThen fun e behind _ he hbehind =>
          (written_token .rpar hbehind).map fun _ _ => he
      · exact gives_error
termination_by 32 * ts.length
decreasing_by all_goals omega

theorem written_expressions (close : TokenKind) {ts : List Token} (hts : Genuine ts) :
    (expressions close ts).outcome.Gives
      fun es => ∀ e ∈ es, e.IsWritten .expression := by
  rw [outcome_expressions]
  exact written_itemsStep hts (fun _ => written_expression hts) fun more hlt hmore =>
    written_expressions close hmore
termination_by 32 * ts.length + 22
decreasing_by all_goals omega

theorem written_fields {ts : List Token} (hts : Genuine ts) :
    (fields ts).outcome.Gives fun fs => ∀ f ∈ fs, f.IsWritten := by
  rw [outcome_fields]
  exact written_itemsStep hts (fun _ => written_field hts) fun more hlt hmore =>
    written_fields hmore
termination_by 32 * ts.length + 2
decreasing_by all_goals omega

theorem written_field {ts : List Token} (hts : Genuine ts) :
    (field ts).outcome.Gives Field.IsWritten := by
  rw [outcome_field]
  exact written_fieldStep hts (fun more hlt hmore => written_expression hmore)
    (fun t e hkey he => .mk hkey he) fun t _ => .mk trivial .reference
termination_by 32 * ts.length
decreasing_by all_goals omega

theorem written_block {ts : List Token} (hts : Genuine ts) :
    (block ts).outcome.Gives (Term.IsWritten .block) := by
  rw [outcome_block]
  refine (written_token .lbrace hts).andThen fun t rest hread _ hrest => ?_
  have hlt := token_short hread
  exact (written_statements hrest).andThen fun body behind _ hbody hbehind =>
    (written_token .rbrace hbehind).map fun _ _ => .block hbody
termination_by 32 * ts.length
decreasing_by all_goals omega

theorem written_statements {ts : List Token} (hts : Genuine ts) :
    (statements ts).outcome.Gives
      fun body => ∀ s ∈ body, s.IsWritten .statement := by
  rw [outcome_statements]
  match ts with
  | [] => exact gives_ok (by simp) hts
  | t :: rest =>
      have hlength : (t :: rest).length = rest.length + 1 := rfl
      have more {s : Term} (hs : s.IsWritten .statement) {behind : List Token}
          (hlt : behind.length < (t :: rest).length) (hbehind : Genuine behind) :
          ((statements behind).outcome.map (s :: ·)).Gives
            fun body => ∀ s ∈ body, s.IsWritten .statement :=
        (written_statements hbehind).map fun body hbody => by simpa using ⟨hs, hbody⟩
      dsimp only
      split
      · exact written_statements hts.tail
      · split
        · exact gives_ok (by simp) hts
        · split
          · exact (written_ifStatement hts).andThen fun s behind hread hs hbehind =>
              more hs (Reply.length_lt_of_outcome hread) hbehind
          · split
            · exact (written_functionDeclaration hts).andThen fun s behind hread hs hbehind =>
                more hs (Reply.length_lt_of_outcome hread) hbehind
            · refine (written_simpleStatement hts).andThen fun s behind hread hs hbehind => ?_
              have hlt := Reply.length_lt_of_outcome hread
              match behind with
              | [] => exact gives_ok (by simpa using hs) hbehind
              | u :: others =>
                  simp only [statementsRest]
                  split
                  · exact more hs (by simp only [List.length_cons] at hlt ⊢; omega) hbehind.tail
                  · exact gives_ok (by simpa using hs) hbehind
termination_by 32 * ts.length + 24
decreasing_by all_goals omega

theorem written_ifStatement {ts : List Token} (hts : Genuine ts) :
    (ifStatement ts).outcome.Gives (Term.IsWritten .statement) := by
  rw [outcome_ifStatement]
  refine (written_token (.keyword .ifWord) hts).andThen fun t afterIf hread _ hts => ?_
  have hltIf := token_short hread
  refine (written_token .lpar hts).andThen fun _ inside hread _ hts => ?_
  have hltInside := token_short hread
  refine (written_expression hts).andThen fun condition behindCondition hread hcondition hts => ?_
  have hltCondition := Reply.length_lt_of_outcome hread
  refine (written_token .rpar hts).andThen fun _ opening hread _ hts => ?_
  have hltOpening := token_short hread
  refine (written_block hts).andThen fun yes behind hread hyes hts => ?_
  have hltYes := Reply.length_lt_of_outcome hread
  match behind with
  | [] => exact gives_ok (.ifThen hcondition hyes) hts
  | e :: rest =>
      have hlength : (e :: rest).length = rest.length + 1 := rfl
      simp only [ifRest]
      split
      · split
        · exact (written_ifStatement hts.tail).map fun no hno =>
            .ifThenElse hcondition hyes (Or.inr rfl) hno
        · exact (written_block hts.tail).map fun no hno =>
            .ifThenElse hcondition hyes (Or.inl rfl) hno
      · exact gives_ok (.ifThen hcondition hyes) hts
termination_by 32 * ts.length
decreasing_by all_goals omega

theorem written_functionDeclaration {ts : List Token} (hts : Genuine ts) :
    (functionDeclaration ts).outcome.Gives (Term.IsWritten .statement) := by
  rw [outcome_functionDeclaration]
  refine (written_token (.keyword .functionWord) hts).andThen fun t afterWord hread _ hts => ?_
  have hltWord := token_short hread
  refine (written_token .name hts).andThen fun name afterName hread _ hts => ?_
  have hltName := token_short hread
  refine (written_params hts).andThen fun ps behind hread hps hts => ?_
  have hlt := Reply.length_lt_of_outcome hread
  exact (written_block hts).map fun body hbody => .functionDeclaration hps hbody
termination_by 32 * ts.length
decreasing_by all_goals omega

theorem written_simpleStatement {ts : List Token} (hts : Genuine ts) :
    (simpleStatement ts).outcome.Gives (Term.IsWritten .statement) := by
  rw [outcome_simpleStatement]
  match ts with
  | [] => exact gives_error
  | t :: rest =>
      have hlength : (t :: rest).length = rest.length + 1 := rfl
      have hrest := hts.tail
      have declares : ((pattern rest).outcome.andThen fun p behind =>
          (token .equal behind).andThen fun _ more =>
            (expression more).outcome.map fun e => Term.node (some t.pos) (.declaration p e)).Gives
          (Term.IsWritten .statement) := by
        refine (written_pattern hrest).andThen fun p behind hread hp hbehind => ?_
        have hlt := Reply.length_lt_of_outcome hread
        refine (written_token .equal hbehind).andThen fun _ more hread _ hmore => ?_
        have hlt' := token_short hread
        exact (written_expression hmore).map fun e he => .declaration hp he
      dsimp only
      split
      · exact declares
      · exact declares
      · exact declares
      · split
        · exact gives_ok .returnNothing hrest
        · exact (written_expression hrest).map fun e he => .returnValue he
      · exact (written_expression hrest).map fun e he => .throwValue he
      · exact (written_expression hts).map fun e he => .expressionStatement he
termination_by 32 * ts.length + 22
decreasing_by all_goals omega

end

/-- A program that is read from allowed tokens is written. -/
theorem written_program {ts : List Token} (hts : Genuine ts) {t : Term}
    (h : program ts = .ok t) : t.IsWritten .program := by
  rw [program_eq] at h
  split at h
  · rename_i body hread
    cases h
    exact .program (written_statements hts _ _ hread).1
  · cases h
  · cases h

end Phrase

end VariantScript.Syntax
