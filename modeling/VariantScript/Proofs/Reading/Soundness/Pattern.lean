import VariantScript.Proofs.Reading.Soundness.Step

/-!
# Patterns within the grammar

Patterns and parameters are read within the grammar.  Where a part of a phrase is missing, a sample
of it stands for a way to go on.
-/

namespace VariantScript.Syntax

open Grammar

namespace Phrase

open Outcome

/-! ## Patterns -/

theorem toNode_keyOf {k : Token} (h : k.IsKey) : (keyOf k).toNode = keyTree k := by
  rcases h with h | h <;> simp [keyOf, Key.toNode, keyTree, Token.leaf, h.1]

theorem toNode_bindName {t : Token} (h : t.kind = .name) : (bindName t).toNode = bindTree t := by
  simp [bindName, Pattern.toNode, bindTree, Token.leaf, h]

theorem toNode_patternShorthand {t : Token} (h : t.Is .name) :
    (patternField.shorthand t).toNode =
      .tree "pattern_field" (some t.pos) [shorthandKeyTree t, bindTree t] := by
  simp [patternField.shorthand, PatternField.toNode, toNode_bindName h.1, shorthandKey,
    Key.toNode, shorthandKeyTree, Token.leaf, h.1]

theorem toNode_fieldShorthand {t : Token} (h : t.Is .name) :
    (field.shorthand t).toNode =
      .tree "field" (some t.pos) [shorthandKeyTree t, referenceTree t] := by
  simp [field.shorthand, Field.toNode, Term.toNode, Form.toNode, shorthandKey, Key.toNode,
    shorthandKeyTree, referenceTree, Token.leaf, h.1]

theorem toNodes_pattern (ps : List Pattern) : Pattern.toNodes ps = ps.map Pattern.toNode := by
  induction ps with
  | nil => simp [Pattern.toNodes]
  | cons p ps ih => simp [Pattern.toNodes, ih]

theorem toNodes_patternField (fs : List PatternField) :
    PatternField.toNodes fs = fs.map PatternField.toNode := by
  induction fs with
  | nil => simp [PatternField.toNodes]
  | cons f fs ih => simp [PatternField.toNodes, ih]

/-- The tokens that stand for a pattern where one is missing. -/
theorem writes_samplePattern :
    Writes .pattern [TokenKind.name.sample] (bindTree TokenKind.name.sample) :=
  .patternName TokenKind.name.sample_is

mutual

theorem sound_pattern {ts : List Token} (hts : Genuine ts) :
    (pattern ts).outcome.Sound ts Pattern.toNode (Writes .pattern) := by
  rw [outcome_pattern]
  match ts with
  | [] => exact ⟨[], rfl, _, _, writes_samplePattern⟩
  | t :: rest =>
      obtain ⟨ht, hrest⟩ := genuine_cons.1 hts
      dsimp only
      split
      · rename_i hkind
        refine ⟨[t], rfl, ?_⟩
        rw [toNode_bindName hkind]
        exact .patternName ⟨hkind, ht⟩
      · rename_i hkind
        refine Sound.cons (Sound.map (sound_patterns .rsqb hrest)
          (g := .tree "array_pattern" (some t.pos)) (fun ps => ?_) ?_)
        · simp [Pattern.toNode, toNodes_pattern]
        · rintro _ ns ⟨u, c, rfl, hc, hu⟩
          exact .patternArray ⟨hkind, ht⟩ hu hc
      · rename_i hkind
        refine Sound.cons (Sound.map (sound_patternFields hrest)
          (g := .tree "object_pattern" (some t.pos)) (fun fs => ?_) ?_)
        · simp [Pattern.toNode, toNodes_patternField]
        · rintro _ ns ⟨u, c, rfl, hc, hu⟩
          exact .patternRecord ⟨hkind, ht⟩ hu hc
      · exact ⟨[], rfl, _, _, writes_samplePattern⟩
termination_by 2 * ts.length
decreasing_by all_goals (simp only [List.length_cons] at *; omega)

theorem sound_patterns (close : TokenKind) {ts : List Token} (hts : Genuine ts) :
    (patterns close ts).outcome.Sound ts (List.map Pattern.toNode) (WritesList .pattern close) := by
  rw [outcome_patterns]
  exact sound_itemsStep hts (fun _ => sound_pattern hts) fun more hlt hmore =>
    sound_patterns close hmore
termination_by 2 * ts.length + 1
decreasing_by all_goals omega

theorem sound_patternFields {ts : List Token} (hts : Genuine ts) :
    (patternFields ts).outcome.Sound ts (List.map PatternField.toNode)
      (WritesList .patternField .rbrace) := by
  rw [outcome_patternFields]
  exact sound_itemsStep hts (fun _ => sound_patternField hts) fun more hlt hmore =>
    sound_patternFields hmore
termination_by 2 * ts.length + 1
decreasing_by all_goals omega

theorem sound_patternField {ts : List Token} (hts : Genuine ts) :
    (patternField ts).outcome.Sound ts PatternField.toNode (Writes .patternField) := by
  rw [outcome_patternField]
  refine sound_fieldStep (g := fun k b => .tree "pattern_field" (some k.pos) [keyTree k, b]) hts
    (fun more hlt hmore => sound_pattern hmore) ⟨_, _, writes_samplePattern⟩
    (fun k c w b hk hc hb => .patternField hk hc hb) (fun t ht => ?_) (fun k x hk => ?_)
  · rw [toNode_patternShorthand ht]
    exact .patternShorthand ht
  · simp [PatternField.toNode, toNode_keyOf hk]
termination_by 2 * ts.length
decreasing_by all_goals omega

end

theorem sound_params {ts : List Token} (hts : Genuine ts) :
    (params ts).outcome.Sound ts Params.toNode (Writes .params) := by
  rw [outcome_params]
  refine sound_token hts (fun t ht => ?_) (fun t rest _ hrest ht => ?_)
  · exact ⟨[TokenKind.rpar.sample], _, .params ht .listNil TokenKind.rpar.sample_is⟩
  · refine Sound.map (sound_patterns .rpar hrest) (g := .tree "params" (some t.pos))
      (fun ps => ?_) ?_
    · simp [Params.toNode, toNodes_pattern]
    · rintro _ ns ⟨u, c, rfl, hc, hu⟩
      exact .params ht hu hc

/-! ## Samples -/

theorem writes_level {l : Level} {w : List Token} {n : Node} (h : Writes .unary w n) :
    Writes (.level l) w n := by
  have product : Writes (.level .product) w n := .levelOperand h
  have sum : Writes (.level .sum) w n := .levelOperand product
  have relation : Writes (.level .relation) w n := .levelOperand sum
  have equality : Writes (.level .equality) w n := .levelOperand relation
  have and : Writes (.level .and) w n := .levelOperand equality
  -- The looser a level is, the more of the steps above it takes to get there.
  cases l with
  | or => exact .levelOperand and
  | and => exact and
  | equality => exact equality
  | relation => exact relation
  | sum => exact sum
  | product => exact product

/-- The token that stands for an operand where one is missing. -/
def sampleName : Token := TokenKind.name.sample

theorem writes_sampleName : Writes .primary [sampleName] (referenceTree sampleName) :=
  .reference TokenKind.name.sample_is

theorem writes_sampleUnary : Writes .unary [sampleName] (referenceTree sampleName) :=
  .unarySuffixed (.suffixedPrimary writes_sampleName)

theorem writes_expression {w : List Token} {n : Node} (h : Writes .primary w n) :
    Writes .expression w n :=
  .expressionConditional (.conditionalOperand (writes_level (.unarySuffixed (.suffixedPrimary h))))

theorem writes_sampleExpression : Writes .expression [sampleName] (referenceTree sampleName) :=
  writes_expression writes_sampleName

/-- The tokens that stand for a block where one is missing. -/
def sampleBlock : List Token := [TokenKind.lbrace.sample, TokenKind.rbrace.sample]

theorem writes_sampleBlock :
    Writes .block sampleBlock (.tree "block" (some TokenKind.lbrace.sample.pos) []) :=
  .block TokenKind.lbrace.sample_is .statementsNil TokenKind.rbrace.sample_is

/-- The tokens that stand for parameters where they are missing. -/
def sampleParams : List Token := [TokenKind.lpar.sample, TokenKind.rpar.sample]

theorem writes_sampleParams :
    Writes .params sampleParams (.tree "params" (some TokenKind.lpar.sample.pos) []) :=
  .params TokenKind.lpar.sample_is .listNil TokenKind.rpar.sample_is

end Phrase

end VariantScript.Syntax
