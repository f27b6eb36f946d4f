import VariantScript.Proofs.Grammar.Preference
import VariantScript.Proofs.Reading.Soundness.Phrase

/-!
# Finding parts

Whatever the productions give, the reader of it takes: it reads exactly the tokens of the part and
answers with a tree that prefers blocks to the tree of the production.  What may stand behind a
part depends on it.  Behind an operand of a level stands no operator that holds its operands more
tightly; behind an expression stands nothing that could go on an expression.
-/

namespace VariantScript.Syntax

open Grammar

/-! ## What stands behind a part -/

/-- How tightly a token that goes on an operand holds what stands before it. -/
def TokenKind.grip : TokenKind → Nat
  | .lpar | .dot | .lsqb => 8
  | .mulOp => 7
  | .plus | .minus => 6
  | .relOp => 5
  | .eqOp => 4
  | .andAnd => 3
  | .orOr => 2
  | .qmark => 1
  | _ => 0

/-- How tightly the first token holds what stands before it. -/
def headGrip : List Token → Nat
  | [] => 0
  | t :: _ => t.kind.grip

/-- How tightly the operators of a level hold their operands. -/
def Phrase.Level.grip : Phrase.Level → Nat
  | .or => 2
  | .and => 3
  | .equality => 4
  | .relation => 5
  | .sum => 6
  | .product => 7

namespace Phrase

theorem Level.accepts_iff (l : Level) (kind : TokenKind) :
    l.accepts kind = true ↔ kind.grip = l.grip := by
  cases l <;> cases kind <;> simp [Level.accepts, Level.grip, TokenKind.grip]

theorem Level.grip_tighter {l k : Level} (h : l.tighter? = some k) : l.grip + 1 = k.grip := by
  cases l <;> cases h <;> rfl

theorem continuesOperand_iff (t : Token) : continuesOperand t = true ↔ t.kind.grip ≠ 0 := by
  unfold continuesOperand TokenKind.grip
  cases t.kind <;> simp

/-- Whether no token at the head goes on an expression. -/
def Stops (rest : List Token) : Prop :=
  ∀ t ∈ rest.head?, ¬ Continues t

theorem Stops.grip {rest : List Token} (h : Stops rest) : headGrip rest = 0 := by
  cases rest with
  | nil => rfl
  | cons t rest =>
      have ht := h t rfl
      simp only [Continues, continuesOperand_iff, not_or, Decidable.not_not] at ht
      exact ht.1

theorem stops_nil : Stops [] := by
  simp [Stops]

theorem stops_cons {t : Token} {rest : List Token}
    (ht : t.kind ∈ [TokenKind.comma, .semicolon, .colon, .rpar, .rsqb, .rbrace]) :
    Stops (t :: rest) := by
  simp only [List.mem_cons, List.not_mem_nil, or_false] at ht
  rintro _ ⟨⟩
  unfold Continues continuesOperand
  rcases ht with ht | ht | ht | ht | ht | ht <;> simp [ht]

/-- What ends a statement ends the expression in it. -/
theorem stops_of_endsStatement {rest : List Token} (h : endsStatement rest = true) :
    Stops rest := by
  cases rest with
  | nil => exact stops_nil
  | cons t rest =>
      have ht : t.kind = .semicolon ∨ t.kind = .rbrace := by
        simpa [endsStatement] using h
      exact stops_cons (by rcases ht with ht | ht <;> simp [ht])

theorem stops_closing {t : Token} {rest : List Token} (ht : t.kind.closes = true) :
    Stops (t :: rest) := by
  apply stops_cons
  cases hk : t.kind <;> simp_all [TokenKind.closes]

/-! ## What it is to find a part -/

variable {α : Type}

/-- A reader takes tokens with what is fit to stand behind them, and answers with a phrase whose
trees prefer blocks to `ns`. -/
def Finds (read : List Token → Outcome α) (trees : α → List Node) (fits : List Token → Prop)
    (w : List Token) (ns : List Node) : Prop :=
  ∃ x, AgreesBut BothWays (trees x) ns ∧
    ∀ rest, Genuine rest → fits rest → read (w ++ rest) = .ok (x, rest)

/-- A reader of lists takes tokens up to a closing mark. -/
def FindsList (read : List Token → Outcome (List α)) (toNode : α → Node) (close : TokenKind)
    (w : List Token) (ns : List Node) : Prop :=
  ∃ xs, AgreesBut BothWays (xs.map toNode) ns ∧
    ∀ c rest, c.kind = close → Genuine (c :: rest) → read (w ++ c :: rest) = .ok (xs, rest)

/-- A reader takes a first part, which can still grow, and goes on as `grow` does. -/
def FindsFirst (read : List Token → Outcome Term)
    (grow : Option Position → Term → List Token → Outcome Term) (fits : List Token → Prop)
    (w : List Token) (ns : List Node) : Prop :=
  ∃ e : Term, AgreesBut BothWays [e.toNode] ns ∧
    ∀ rest, Genuine rest → fits rest → read (w ++ rest) = grow (startOf w) e rest

/-- Whether no colon stands at the head. -/
def NoColon (rest : List Token) : Prop :=
  ∀ t ∈ rest.head?, t.kind ≠ .colon

/-- Whether no `else` stands at the head. -/
def NoElse (rest : List Token) : Prop :=
  ∀ t ∈ rest.head?, t.kind ≠ .keyword .elseWord

/-- Whether statements end here: at the end or at a closing brace. -/
def EndsStatements (rest : List Token) : Prop :=
  ∀ t ∈ rest.head?, t.kind = .rbrace

abbrev FindsPattern :=
  Finds (fun ts => (pattern ts).outcome) (fun p => [p.toNode]) fun _ => True

abbrev FindsPatterns (close : TokenKind) :=
  FindsList (fun ts => (patterns close ts).outcome) Pattern.toNode close

abbrev FindsPatternField :=
  Finds (fun ts => (patternField ts).outcome) (fun f => [f.toNode]) NoColon

abbrev FindsPatternFields :=
  FindsList (fun ts => (patternFields ts).outcome) PatternField.toNode .rbrace

abbrev FindsParams :=
  Finds (fun ts => (params ts).outcome) (fun ps => [ps.toNode]) fun _ => True

abbrev FindsExpression :=
  Finds (fun ts => (expression ts).outcome) (fun e => [e.toNode]) Stops

abbrev FindsExpressions (close : TokenKind) :=
  FindsList (fun ts => (expressions close ts).outcome) Term.toNode close

/-- Behind an arrow the reader may take a block where the tree has a record. -/
def FindsBody (w : List Token) (ns : List Node) : Prop :=
  ∃ e : Term, (AgreesBut BothWays [e.toNode] ns ∨ ∃ n, ns = [n] ∧ BothWays e.toNode n) ∧
    ∀ rest, Genuine rest → Stops rest → (arrowBody (w ++ rest)).outcome = .ok (e, rest)

abbrev FindsConditional :=
  Finds (fun ts => (conditional ts).outcome) (fun e => [e.toNode]) Stops

abbrev FindsLevel (l : Level) :=
  FindsFirst (fun ts => (chain l ts).outcome) (fun start e ts => (chainRest l start e ts).outcome)
    fun rest => headGrip rest ≤ l.grip

abbrev FindsOperand (l : Level) :=
  Finds (fun ts => (operand l ts).outcome) (fun e => [e.toNode]) fun rest => headGrip rest ≤ l.grip

abbrev FindsUnary :=
  Finds (fun ts => (unary ts).outcome) (fun e => [e.toNode]) fun rest => headGrip rest < 8

abbrev FindsSuffixed :=
  FindsFirst (fun ts => (unary ts).outcome) (fun start e ts => (postfixRest start e ts).outcome)
    fun _ => True

abbrev FindsPrimary :=
  Finds (fun ts => (primary ts).outcome) (fun e => [e.toNode]) fun _ => True

abbrev FindsField :=
  Finds (fun ts => (field ts).outcome) (fun f => [f.toNode]) fun rest => Stops rest ∧ NoColon rest

abbrev FindsFields :=
  FindsList (fun ts => (fields ts).outcome) Field.toNode .rbrace

abbrev FindsBlock :=
  Finds (fun ts => (block ts).outcome) (fun e => [e.toNode]) fun _ => True

abbrev FindsStatements :=
  Finds (fun ts => (statements ts).outcome) (List.map Term.toNode) EndsStatements

abbrev FindsStatement :=
  Finds (fun ts => (simpleStatement ts).outcome) (fun e => [e.toNode])
    fun rest => endsStatement rest = true

abbrev FindsIf :=
  Finds (fun ts => (ifStatement ts).outcome) (fun e => [e.toNode]) NoElse

abbrev FindsFunction :=
  Finds (fun ts => (functionDeclaration ts).outcome) (fun e => [e.toNode]) fun _ => True

/-- The first tokens tell which reader finds a compound statement. -/
def FindsCompound (w : List Token) (ns : List Node) : Prop :=
  (FindsIf w ns ∧ ∃ t v, w = t :: v ∧ t.kind = .keyword .ifWord) ∨
    (FindsFunction w ns ∧
      ∃ t k v, w = t :: k :: v ∧ t.kind = .keyword .functionWord ∧ k.kind = .name)

/-- The reader of a part finds it. -/
def Found (p : Part) (w : List Token) (ns : List Node) : Prop :=
  match p with
  | .one .pattern => FindsPattern w ns
  | .one .patternField => FindsPatternField w ns
  | .one .params => FindsParams w ns
  | .list .pattern => ∀ close, close.closes = true → FindsPatterns close w ns
  | .list .patternField => FindsPatternFields w ns
  | .list .expression => ∀ close, close.closes = true → FindsExpressions close w ns
  | .list .field => FindsFields w ns
  | .one .expression | .one .arrow => FindsExpression w ns
  | .body => FindsBody w ns
  | .one .conditional => FindsConditional w ns
  | .one (.level l) => FindsLevel l w ns
  | .one .unary => FindsUnary w ns
  | .one .suffixed => FindsSuffixed w ns
  | .one .primary | .one .array | .one .object => FindsPrimary w ns
  | .one .field => FindsField w ns
  | .one .block => FindsBlock w ns
  | .statements => FindsStatements w ns
  | .one .simpleStatement | .one .declaration | .one .returnStatement | .one .throwStatement =>
      FindsStatement w ns
  | .one .ifStatement => FindsIf w ns
  | .one .functionDeclaration => FindsFunction w ns
  | .one .compoundStatement => FindsCompound w ns
  | .one .start => ∃ t, program w = .ok t ∧ AgreesBut BothWays [t.toNode] ns
  | _ => True

/-! ## Lists -/

/-- Reading behind one item. -/
theorem itemsStep_item {r : Rule} {close : TokenKind} {item : List Token → Outcome α}
    {items : List Token → Outcome (List α)} {w : List Token} {n : Node} {x : α}
    (hw : Produces (.one r) w [n]) (hr : (Part.one r).IsFilled) (hclose : close.closes = true)
    {c : Token} {rest : List Token} (hitem : item (w ++ c :: rest) = .ok (x, c :: rest)) :
    itemsStep close item items (w ++ c :: rest) =
      if c.kind = .comma then (items rest).map (x :: ·)
      else if c.kind = close then .ok ([x], rest) else .error (c :: rest) := by
  obtain ⟨t, v, rfl, ht⟩ := head_of_produces hw hr
  have hne : t.kind ≠ close := by
    rintro rfl
    simp [hclose] at ht
  simp only [List.cons_append, itemsStep, if_neg hne]
  simp only [List.cons_append] at hitem
  rw [hitem]
  rfl

section

variable {r : Rule} {close : TokenKind} {item : List Token → Outcome α}
  {read : List Token → Outcome (List α)} {toNode : α → Node} {fits : List Token → Prop}
  (hread : ∀ ts, read ts = itemsStep close item read ts)

include hread

theorem findsList_nil : FindsList read toNode close [] [] := by
  refine ⟨[], .nil, fun c rest hc _ => ?_⟩
  rw [List.nil_append, hread]
  simp [itemsStep, hc]

variable (hr : (Part.one r).IsFilled) (hclose : close.closes = true)

include hr hclose

theorem findsList_last {w : List Token} {x : Node} (hw : Produces (.one r) w [x])
    (h : Finds item (fun y => [toNode y]) fits w [x])
    (hfits : ∀ c rest, c.kind = close → fits (c :: rest)) :
    FindsList read toNode close w [x] := by
  obtain ⟨y, hy, hitem⟩ := h
  refine ⟨[y], hy, fun c rest hc hrest => ?_⟩
  -- The mark that closes the list cannot be taken for a comma that keeps it going.
  have hcomma : c.kind ≠ .comma := by
    intro hcomma
    rw [← hc, hcomma] at hclose
    simp [TokenKind.closes] at hclose
  rw [hread, itemsStep_item hw hr hclose (hitem _ hrest (hfits c rest hc)), if_neg hcomma,
    if_pos hc]

theorem findsList_more {u v : List Token} {x : Node} {ns : List Node} {c : Token}
    (hu : Produces (.one r) u [x]) (h : Finds item (fun y => [toNode y]) fits u [x])
    (hfits : ∀ c rest, c.kind = .comma → fits (c :: rest)) (hc : c.Is .comma) (hv : Genuine v)
    (items : FindsList read toNode close v ns) :
    FindsList read toNode close (u ++ c :: v) (x :: ns) := by
  obtain ⟨y, hy, hitem⟩ := h
  obtain ⟨ys, hys, hitems⟩ := items
  refine ⟨y :: ys, hy.cons hys, fun c' rest hc' hrest => ?_⟩
  have hgenuine : Genuine (c :: (v ++ c' :: rest)) := by
    simpa using ⟨hc.2, hv, by simpa using hrest⟩
  rw [List.append_assoc, List.cons_append, hread,
    itemsStep_item hu hr hclose (hitem _ hgenuine (hfits c _ hc.1)), if_pos hc.1,
    hitems c' rest hc' hrest]
  rfl

end

/-! ## Fields -/

section

variable {β : Type} {value : List Token → Outcome α} {make : Token → α → β} {shorthand : Token → β}

/-- Reading a key, a colon and a value. -/
theorem fieldStep_value {k c : Token} (hk : k.IsKey) (hc : c.Is .colon) (ts : List Token) :
    fieldStep value make shorthand (k :: c :: ts) = (value ts).map (make k) := by
  have hkind : k.kind = .name ∨ k.kind = .string := hk.imp And.left And.left
  simp [fieldStep, hkind, hc.1]

/-- Reading a name that no colon stands behind. -/
theorem fieldStep_shorthand {t : Token} (ht : t.Is .name) {rest : List Token}
    (hrest : NoColon rest) :
    fieldStep value make shorthand (t :: rest) = .ok (shorthand t, rest) := by
  cases rest with
  | nil => simp [fieldStep, ht.1]
  | cons u rest =>
      have hu : u.kind ≠ .colon := hrest u rfl
      simp [fieldStep, ht.1, hu]

end

/-! ## Patterns -/

theorem Finds.intro {read : List Token → Outcome α} {trees : α → List Node}
    {fits : List Token → Prop} {w : List Token} {ms ns : List Node} (x : α) (htrees : trees x = ms)
    (hns : AgreesBut BothWays ms ns)
    (hread : ∀ rest, Genuine rest → fits rest → read (w ++ rest) = .ok (x, rest)) :
    Finds read trees fits w ns :=
  ⟨x, by rw [htrees]; exact hns, hread⟩

theorem between_append (o c : Token) (w rest : List Token) :
    (o :: (w ++ [c])) ++ rest = o :: (w ++ c :: rest) := by
  simp

theorem finds_patternName {t : Token} (ht : t.Is .name) :
    FindsPattern [t] [bindTree t] := by
  refine Finds.intro (bindName t) (by rw [toNode_bindName ht.1]) (.refl _) fun rest _ _ => ?_
  simp [outcome_pattern, ht.1]

section

variable {o c : Token} {w : List Token} {ns : List Node}

theorem finds_patternArray (ho : o.Is .lsqb) (hc : c.Is .rsqb) (items : FindsPatterns .rsqb w ns) :
    FindsPattern (o :: (w ++ [c])) [.tree "array_pattern" (some o.pos) ns] := by
  obtain ⟨ps, hps, hread⟩ := items
  refine Finds.intro (.array (some o.pos) ps) (by rw [Pattern.toNode, toNodes_pattern]) hps.under
    fun rest hrest _ => ?_
  have hw : (patterns .rsqb (w ++ c :: rest)).outcome = .ok (ps, rest) :=
    hread c rest hc.1 (genuine_cons.2 ⟨hc.2, hrest⟩)
  rw [between_append, outcome_pattern]
  simp [ho.1, hw]

theorem finds_patternRecord (ho : o.Is .lbrace) (hc : c.Is .rbrace)
    (items : FindsPatternFields w ns) :
    FindsPattern (o :: (w ++ [c])) [.tree "object_pattern" (some o.pos) ns] := by
  obtain ⟨fs, hfs, hread⟩ := items
  refine Finds.intro (.record (some o.pos) fs) (by rw [Pattern.toNode, toNodes_patternField])
    hfs.under fun rest hrest _ => ?_
  have hw : (patternFields (w ++ c :: rest)).outcome = .ok (fs, rest) :=
    hread c rest hc.1 (genuine_cons.2 ⟨hc.2, hrest⟩)
  rw [between_append, outcome_pattern]
  simp [ho.1, hw]

theorem finds_params (ho : o.Is .lpar) (hc : c.Is .rpar) (items : FindsPatterns .rpar w ns) :
    FindsParams (o :: (w ++ [c])) [.tree "params" (some o.pos) ns] := by
  obtain ⟨ps, hps, hread⟩ := items
  refine Finds.intro ⟨some o.pos, ps⟩ (by rw [Params.toNode, toNodes_pattern]) hps.under
    fun rest hrest _ => ?_
  have hw : (patterns .rpar (w ++ c :: rest)).outcome = .ok (ps, rest) :=
    hread c rest hc.1 (genuine_cons.2 ⟨hc.2, hrest⟩)
  rw [between_append, outcome_params]
  simp [token, ho.1, hw]

end

theorem finds_patternField {k c : Token} {w : List Token} {x : Node} (hk : k.IsKey)
    (hc : c.Is .colon) (value : FindsPattern w [x]) :
    FindsPatternField (k :: c :: w)
      [.tree "pattern_field" (some k.pos) [keyTree k, x]] := by
  obtain ⟨p, hp, hread⟩ := value
  refine Finds.intro (.mk (some k.pos) (keyOf k) p) (by rw [PatternField.toNode, toNode_keyOf hk])
    (.under (.pair (.refl _) hp)) fun rest hrest _ => ?_
  have hw : (pattern (w ++ rest)).outcome = .ok (p, rest) := hread rest hrest trivial
  rw [List.cons_append, List.cons_append, outcome_patternField, fieldStep_value hk hc, hw]
  rfl

theorem finds_patternShorthand {t : Token} (ht : t.Is .name) :
    FindsPatternField [t]
      [.tree "pattern_field" (some t.pos) [shorthandKeyTree t, bindTree t]] := by
  refine Finds.intro (patternField.shorthand t) (by rw [toNode_patternShorthand ht]) (.refl _)
    fun rest _ hfits => ?_
  rw [List.singleton_append, outcome_patternField, fieldStep_shorthand ht hfits]

end Phrase

end VariantScript.Syntax
