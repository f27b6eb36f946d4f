import Mathlib.Data.List.Forall2
import VariantScript.Proofs.Reading.Completeness.Operand
import VariantScript.Proofs.Serialization.Words

/-!
# What the words of data are read as

Words that start like data are read as an expression, whatever stands behind it that stops an
expression.  There is one such statement for each kind of data; those for arrays and records ask it
of their parts.  What is good about the expression is left open.
-/

namespace VariantScript.Syntax

/-- Whether a kind of token can start the written form of data. -/
def TokenKind.startsData : TokenKind → Bool
  | .number | .string | .minus | .lsqb | .lbrace | .keyword .trueWord | .keyword .falseWord => true
  | _ => false

namespace Phrase

variable {α β : Type}

/-! ## Expressions without operators between operands -/

theorem chain_of_unary {ts rest : List Token} {e : Term} (hgrip : headGrip rest = 0)
    (h : (unary ts).outcome = .ok (e, rest)) : (chain .or ts).outcome = .ok (e, rest) := by
  have step (l : Level) (hoperand : (operand l ts).outcome = .ok (e, rest)) :
      (chain l ts).outcome = .ok (e, rest) := by
    have hne : headGrip rest ≠ l.grip := by
      rw [hgrip]
      cases l <;> decide
    rw [outcome_chain, hoperand]
    exact chainRest_stop _ _ hne
  have product := step .product h
  have sum := step .sum product
  have relation := step .relation sum
  have equality := step .equality relation
  have and := step .and equality
  exact step .or and

theorem expression_of_unary {t : Token} {ts rest : List Token} {e : Term}
    (ht : t.kind.startsData = true) (h : (unary (t :: ts)).outcome = .ok (e, rest))
    (hrest : Stops rest) : (expression (t :: ts)).outcome = .ok (e, rest) := by
  have hname : t.kind ≠ .name := fun hk => by simp [hk, TokenKind.startsData] at ht
  have hlpar : t.kind ≠ .lpar := fun hk => by simp [hk, TokenKind.startsData] at ht
  have hconditional : (conditional (t :: ts)).outcome = .ok (e, rest) := by
    rw [outcome_conditional, chain_of_unary hrest.grip h]
    have hgrip := hrest.grip
    cases rest with
    | nil => rfl
    | cons q rest =>
        have hq : q.kind ≠ .qmark := fun hk => by simp [headGrip, hk, TokenKind.grip] at hgrip
        simp [conditionalRest, hq]
  rw [outcome_expression]
  cases ts with
  | nil => exact hconditional
  | cons u ts => simpa [hname, hlpar] using hconditional

theorem unary_of_primary {t : Token} {ts rest : List Token} {e : Term}
    (ht : t.kind.startsData = true) (hminus : t.kind ≠ .minus)
    (h : (primary (t :: ts)).outcome = .ok (e, rest)) (hrest : Stops rest) :
    (unary (t :: ts)).outcome = .ok (e, rest) := by
  have hbang : t.kind ≠ .bang := fun hk => by simp [hk, TokenKind.startsData] at ht
  have hgrip : headGrip rest < 8 := by
    rw [hrest.grip]
    decide
  rw [outcome_unary]
  simp [hbang, hminus, h, postfixRest_stop _ _ hgrip]

/-! ## Words that are read -/

/-- Words that start like data and are read as a good phrase, whatever stands behind them that stops
an expression. -/
structure ReadsAs (read : List Token → Outcome α) (good : α → Prop) (ws : List Word) : Prop where
  starts : ∃ w us, ws = w :: us ∧ w.kind.startsData = true
  reads : ∀ ts rest, ts.map Token.word = ws → Stops rest →
    ∃ x, read (ts ++ rest) = .ok (x, rest) ∧ good x

/-- The tokens of words that start like data start like data. -/
theorem ReadsAs.exists_cons {read : List Token → Outcome α} {good : α → Prop} {ws : List Word}
    (h : ReadsAs read good ws) {ts : List Token} (hts : ts.map Token.word = ws) :
    ∃ t us, ts = t :: us ∧ t.kind.startsData = true := by
  obtain ⟨w, us, rfl, hw⟩ := h.starts
  obtain ⟨t, ts, rfl, rfl, -⟩ := List.map_eq_cons_iff.1 hts
  exact ⟨t, ts, rfl, hw⟩

section

variable {close : TokenKind} {read : List Token → Outcome α} {items : List Token → Outcome (List α)}
  (hitems : ∀ ts, items ts = itemsStep close read items ts) (hclose : close.closes = true)

include hitems hclose

/-- An item is read, and on behind it. -/
theorem items_first {good : α → Prop} {ws : List Word} (h : ReadsAs read good ws)
    {ts rest : List Token} (hts : ts.map Token.word = ws) (hrest : Stops rest) :
    ∃ x, items (ts ++ rest) = itemsRest close items x rest ∧ good x := by
  obtain ⟨x, hread, hx⟩ := h.reads ts rest hts hrest
  obtain ⟨t, us, rfl, ht⟩ := h.exists_cons hts
  have hopen : t.kind ≠ close := by
    rintro rfl
    cases hk : t.kind <;> simp_all [TokenKind.startsData, TokenKind.closes]
  rw [List.cons_append] at hread
  refine ⟨x, ?_, hx⟩
  rw [hitems, List.cons_append, itemsStep, if_neg hopen, hread, Outcome.andThen_ok]

/-- Items with commas between them are read one by one, up to a closing mark. -/
theorem items_of_words {R : α → β → Prop} {wss : List (List Word)} {ys : List β}
    (h : List.Forall₂ (fun ws y => ReadsAs read (R · y) ws) wss ys) {ts : List Token}
    (hts : ts.map Token.word = Json.commaSeparated wss) {c : Token} (hc : c.kind = close)
    (rest : List Token) :
    ∃ xs, items (ts ++ c :: rest) = .ok (xs, rest) ∧ List.Forall₂ R xs ys := by
  have hcomma : c.kind ≠ .comma := by
    rintro hk
    rw [← hc, hk] at hclose
    cases hclose
  induction h generalizing ts with
  | nil =>
      obtain rfl := List.map_eq_nil_iff.1 hts
      exact ⟨[], by rw [hitems, List.nil_append, itemsStep, if_pos hc], .nil⟩
  | @cons ws y wss ys hfirst hrest ih =>
      cases hrest with
      | nil =>
          have hts : ts.map Token.word = ws := by simpa [Json.commaSeparated] using hts
          have hstops : Stops (c :: rest) := stops_closing (hc ▸ hclose)
          obtain ⟨x, hread, hx⟩ := items_first hitems hclose hfirst hts hstops
          refine ⟨[x], ?_, .cons hx .nil⟩
          rw [hread, itemsRest, if_neg hcomma, if_pos hc]
      | @cons ws' y' wss ys hsecond hrest =>
          rw [Json.commaSeparated, List.intercalate_cons_cons, List.append_assoc,
            List.map_eq_append_iff] at hts
          obtain ⟨first, behind, rfl, hws, hbehind⟩ := hts
          obtain ⟨u, more, rfl, hu, hmore⟩ := List.map_eq_cons_iff.1 hbehind
          have hkind : u.kind = .comma := congrArg Word.kind hu
          have hstops : Stops (u :: (more ++ c :: rest)) := stops_cons (by simp [hkind])
          obtain ⟨x, hread, hx⟩ := items_first hitems hclose hfirst hws hstops
          obtain ⟨xs, hread', hxs⟩ := ih hmore
          refine ⟨x :: xs, ?_, .cons hx hxs⟩
          rw [List.append_assoc, List.cons_append, hread, itemsRest, if_pos hkind, hread',
            Outcome.map_ok]

/-- Items and their closing mark are read. -/
theorem items_closed {R : α → β → Prop} {wss : List (List Word)} {ys : List β}
    (h : List.Forall₂ (fun ws y => ReadsAs read (R · y) ws) wss ys) {ts : List Token}
    {mark : String} (hts : ts.map Token.word = Json.commaSeparated wss ++ [⟨close, mark⟩])
    (rest : List Token) :
    ∃ xs, items (ts ++ rest) = .ok (xs, rest) ∧ List.Forall₂ R xs ys := by
  obtain ⟨inside, closing, rfl, hinside, hclosing⟩ := List.map_eq_append_iff.1 hts
  obtain ⟨c, rfl, hc⟩ := List.map_eq_singleton_iff.1 hclosing
  obtain ⟨xs, hread, hxs⟩ :=
    items_of_words hitems hclose h hinside (congrArg Word.kind hc) rest
  exact ⟨xs, by rwa [List.append_assoc], hxs⟩

end

/-! ## Each kind of data -/

/-- Words that are read as a good expression. -/
abbrev ReadsExpression (good : Term → Prop) (ws : List Word) : Prop :=
  ReadsAs (fun ts => (expression ts).outcome) good ws

theorem readsExpression_of_primary {good : Term → Prop} {w : Word} {us : List Word}
    (hw : w.kind.startsData = true) (hminus : w.kind ≠ .minus)
    (h : ∀ (t : Token) ts rest, t.word = w → ts.map Token.word = us →
      ∃ e, (primary (t :: (ts ++ rest))).outcome = .ok (e, rest) ∧ good e) :
    ReadsExpression good (w :: us) := by
  refine ⟨⟨w, us, rfl, hw⟩, fun ts rest hts hrest => ?_⟩
  obtain ⟨t, ts, rfl, rfl, hus⟩ := List.map_eq_cons_iff.1 hts
  obtain ⟨e, hprimary, he⟩ := h t ts rest rfl hus
  exact ⟨e, expression_of_unary hw (unary_of_primary hw hminus hprimary hrest) hrest, he⟩

/-- One word alone that is read as a primary. -/
theorem readsExpression_of_one {good : Term → Prop} {w : Word} (hw : w.kind.startsData = true)
    (hminus : w.kind ≠ .minus)
    (h : ∀ (t : Token) rest, t.word = w →
      ∃ e, (primary (t :: rest)).outcome = .ok (e, rest) ∧ good e) :
    ReadsExpression good [w] := by
  refine readsExpression_of_primary hw hminus fun t ts rest ht hts => ?_
  obtain rfl := List.map_eq_nil_iff.1 hts
  exact h t rest ht

section

variable {good : Term → Prop} {text : String}

theorem reads_number (h : ∀ p, good (.node (some p) (.number ⟨text, p⟩))) :
    ReadsExpression good [⟨.number, text⟩] := by
  refine readsExpression_of_one rfl nofun fun t rest ht => ?_
  obtain ⟨hkind, rfl⟩ := Word.mk.inj ht
  exact ⟨_, by rw [outcome_primary]; simp [hkind, Token.spelled], h t.pos⟩

theorem reads_string (h : ∀ p, good (.node (some p) (.string ⟨text, p⟩))) :
    ReadsExpression good [⟨.string, text⟩] := by
  refine readsExpression_of_one rfl nofun fun t rest ht => ?_
  obtain ⟨hkind, rfl⟩ := Word.mk.inj ht
  exact ⟨_, by rw [outcome_primary]; simp [hkind, Token.spelled], h t.pos⟩

theorem reads_truth {flag : Bool} (h : ∀ p, good (.node (some p) (.truth flag))) :
    ReadsExpression good [⟨.keyword (if flag then .trueWord else .falseWord), text⟩] := by
  refine readsExpression_of_one (by cases flag <;> rfl) (by simp) fun t rest ht => ?_
  obtain ⟨hkind, rfl⟩ := Word.mk.inj ht
  refine ⟨_, ?_, h t.pos⟩
  rw [outcome_primary]
  cases flag <;> simp_all

theorem reads_negated
    (h : ∀ p q, good (.node (some p) (.unary .negate p (.node (some q) (.number ⟨text, q⟩))))) :
    ReadsExpression good [⟨.minus, "-"⟩, ⟨.number, text⟩] := by
  refine ⟨⟨_, _, rfl, rfl⟩, fun ts rest hts hrest => ?_⟩
  obtain ⟨t, ts, rfl, ht, hts⟩ := List.map_eq_cons_iff.1 hts
  obtain ⟨u, ts, rfl, hu, hts⟩ := List.map_eq_cons_iff.1 hts
  obtain rfl := List.map_eq_nil_iff.1 hts
  obtain ⟨hminus, -⟩ := Word.mk.inj ht
  obtain ⟨hnumber, rfl⟩ := Word.mk.inj hu
  have hprimary : (primary (u :: rest)).outcome =
      .ok (.node (some u.pos) (.number ⟨u.text, u.pos⟩), rest) := by
    rw [outcome_primary]
    simp [hnumber, Token.spelled]
  have hoperand := unary_of_primary (by rw [hnumber]; rfl) (by simp [hnumber]) hprimary hrest
  have hunary : (unary (t :: u :: rest)).outcome = .ok (.node (some t.pos)
      (.unary .negate t.pos (.node (some u.pos) (.number ⟨u.text, u.pos⟩))), rest) := by
    rw [outcome_unary]
    simp [hminus, hoperand]
  exact ⟨_, expression_of_unary (by rw [hminus]; rfl) hunary hrest, h t.pos u.pos⟩

theorem reads_array {R : Term → β → Prop} {wss : List (List Word)} {ys : List β}
    (h : List.Forall₂ (fun ws y => ReadsExpression (R · y) ws) wss ys)
    (hgood : ∀ p es, List.Forall₂ R es ys → good (.node (some p) (.array es))) :
    ReadsExpression good (⟨.lsqb, "["⟩ :: (Json.commaSeparated wss ++ [⟨.rsqb, "]"⟩])) := by
  refine readsExpression_of_primary rfl nofun fun t ts rest ht hts => ?_
  obtain ⟨hkind, -⟩ := Word.mk.inj ht
  obtain ⟨es, hitems, hes⟩ := items_closed (outcome_expressions .rsqb) rfl h hts rest
  exact ⟨_, by rw [outcome_primary]; simp [hkind, hitems], hgood t.pos es hes⟩

theorem reads_record {R : Field → β → Prop} {wss : List (List Word)} {ys : List β}
    (h : List.Forall₂ (fun ws y => ReadsAs (fun ts => (field ts).outcome) (R · y) ws) wss ys)
    (hgood : ∀ p fs, List.Forall₂ R fs ys → good (.node (some p) (.record fs))) :
    ReadsExpression good
      (⟨.lbrace, "\x7b"⟩ :: (Json.commaSeparated wss ++ [⟨.rbrace, "\x7d"⟩])) := by
  refine readsExpression_of_primary rfl nofun fun t ts rest ht hts => ?_
  obtain ⟨hkind, -⟩ := Word.mk.inj ht
  obtain ⟨fs, hitems, hfs⟩ := items_closed outcome_fields rfl h hts rest
  exact ⟨_, by rw [outcome_primary]; simp [hkind, hitems], hgood t.pos fs hfs⟩

/-- A name in quotes, a colon and an item are a field. -/
theorem reads_field {good' : Field → Prop} {ws : List Word} (h : ReadsExpression good ws)
    (hgood : ∀ p e, good e → good' (.mk (some p) ⟨some p, .quoted ⟨text, p⟩⟩ e)) :
    ReadsAs (fun ts => (field ts).outcome) good' (⟨.string, text⟩ :: ⟨.colon, ":"⟩ :: ws) := by
  refine ⟨⟨_, _, rfl, rfl⟩, fun ts rest hts hrest => ?_⟩
  obtain ⟨t, us, rfl, ht, hus⟩ := List.map_eq_cons_iff.1 hts
  obtain ⟨u, vs, rfl, hu, hvs⟩ := List.map_eq_cons_iff.1 hus
  obtain ⟨hstring, rfl⟩ := Word.mk.inj ht
  obtain ⟨hcolon, -⟩ := Word.mk.inj hu
  obtain ⟨e, hread, he⟩ := h.reads vs rest hvs hrest
  have hkey : keyOf t = ⟨some t.pos, .quoted ⟨t.text, t.pos⟩⟩ := by
    simp [keyOf, hstring, Token.spelled]
  refine ⟨_, ?_, hkey ▸ hgood t.pos e he⟩
  rw [outcome_field]
  simp [fieldStep, hstring, hcolon, hread]

end

/-! ## Programs of one expression -/

theorem program_of_words {good : Term → Prop} {ws : List Word} (h : ReadsExpression good ws)
    {ts : List Token} (hts : ts.map Token.word = ws) :
    ∃ p q e, program ts = .ok (.node p (.program [.node q (.expressionStatement e)])) ∧ good e := by
  obtain ⟨t, us, rfl, ht⟩ := h.exists_cons hts
  obtain ⟨e, hread, he⟩ := h.reads (t :: us) [] hts stops_nil
  rw [List.append_nil] at hread
  have hsimple : (simpleStatement (t :: us)).outcome =
      .ok (.node (some t.pos) (.expressionStatement e), []) := by
    rw [outcome_simpleStatement]
    cases hk : t.kind with
    | keyword word => cases word <;> simp_all [TokenKind.startsData]
    | _ => simp [hk, hread]
  have hstatements : (statements (t :: us)).outcome =
      .ok ([.node (some t.pos) (.expressionStatement e)], []) := by
    have hsemicolon : t.kind ≠ .semicolon := fun hk => by simp [hk, TokenKind.startsData] at ht
    have hrbrace : t.kind ≠ .rbrace := fun hk => by simp [hk, TokenKind.startsData] at ht
    have hif : t.kind ≠ .keyword .ifWord := fun hk => by simp [hk, TokenKind.startsData] at ht
    have hfunction : t.kind ≠ .keyword .functionWord := fun hk => by
      simp [hk, TokenKind.startsData] at ht
    rw [outcome_statements]
    simp [hsemicolon, hrbrace, hif, hfunction, hsimple, statementsRest]
  exact ⟨_, _, e, by rw [program_eq, hstatements], he⟩

end Phrase

/-- The text of words that are read as an expression is a program of it. -/
theorem Program.read_of_words {good : Term → Prop} {text : String} {ws : List Word}
    (hspells : Spells text.toList ws) (h : Phrase.ReadsExpression good ws) :
    ∃ p q e, Program.read text.toList =
      .ok (.node p (.program [.node q (.expressionStatement e)])) ∧ good e := by
  have hwords : wordsOf text.toList = (ws, []) := by
    have hend := hspells [] nofun
    rwa [List.append_nil, wordsBefore, wordsOf_nil, List.append_nil] at hend
  rw [← wordsOf_tokensOf] at hwords
  obtain ⟨hts, hleft⟩ := Prod.mk.inj hwords
  obtain ⟨p, q, e, hprogram, he⟩ := Phrase.program_of_words h hts
  refine ⟨p, q, e, ?_, he⟩
  unfold Program.read
  dsimp only
  rw [hprogram, hleft]

end VariantScript.Syntax
