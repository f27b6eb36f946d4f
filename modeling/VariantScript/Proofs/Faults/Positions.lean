import VariantScript.Proofs.Evaluation.Scopes
import VariantScript.Proofs.Joining.Statements

/-!
# Terms have places

Every tree that the grammar makes has the place of one of its tokens, but for the keys of shorthands.
So every term of a program has one as well, and only a program without tokens has none: it is empty.
-/

namespace VariantScript.Syntax

/-- One of some tokens stands at a place. -/
def IsPlaceOf (w : List Token) (p : Position) : Prop :=
  ∃ token ∈ w, token.pos = p

/-! ## Trees -/

/-- Every tree in it, but for keys, has a place of some kind. -/
inductive Node.IsPlaced (P : Position → Prop) : Node → Prop where
  | tree {label : String} {pos : Option Position} {children : List Node}
      (hpos : label = "key" ∨ ∃ p, pos = some p ∧ P p)
      (hchildren : ∀ n ∈ children, IsPlaced P n) : IsPlaced P (.tree label pos children)
  | token {type text : String} {pos : Option Position} : IsPlaced P (.token type text pos)

namespace Node.IsPlaced

variable {P : Position → Prop} {label : String} {pos : Option Position} {children : List Node}
  {p : Position}

theorem placed (hp : P p) (hchildren : ∀ n ∈ children, n.IsPlaced P) :
    (Node.tree label (some p) children).IsPlaced P :=
  .tree (.inr ⟨p, rfl, hp⟩) hchildren

theorem started {w : List Token} (hne : w ≠ []) (hw : ∀ t ∈ w, P t.pos)
    (hchildren : ∀ n ∈ children, n.IsPlaced P) :
    (Node.tree label (startOf w) children).IsPlaced P := by
  obtain ⟨t, v, rfl⟩ := List.exists_cons_of_ne_nil hne
  exact .placed (hw t (.head _)) hchildren

theorem leaf (t : Token) : t.leaf.IsPlaced P :=
  .token

theorem inside (h : (Node.tree label pos children).IsPlaced P) :
    ∀ n ∈ children, n.IsPlaced P := by
  cases h with
  | tree _ hchildren => exact hchildren

theorem place (h : (Node.tree label pos children).IsPlaced P) (hlabel : label ≠ "key") :
    ∃ p, pos = some p ∧ P p := by
  cases h with
  | tree hpos _ => exact hpos.resolve_left hlabel

end Node.IsPlaced

namespace Grammar

variable {P : Position → Prop} {t : Token}

theorem isPlaced_cons {x : Node} {ns : List Node} (hx : ∀ n ∈ [x], n.IsPlaced P)
    (hns : ∀ n ∈ ns, n.IsPlaced P) : ∀ n ∈ x :: ns, n.IsPlaced P :=
  List.forall_mem_cons.2 ⟨hx x (.head _), hns⟩

theorem isPlaced_bindTree (ht : P t.pos) : (bindTree t).IsPlaced P :=
  .placed ht (List.forall_mem_singleton.2 (.leaf t))

theorem isPlaced_referenceTree (ht : P t.pos) : (referenceTree t).IsPlaced P :=
  .placed ht (List.forall_mem_singleton.2 (.leaf t))

theorem isPlaced_keyTree (ht : P t.pos) : (keyTree t).IsPlaced P :=
  .placed ht (List.forall_mem_singleton.2 (.leaf t))

theorem isPlaced_shorthandKeyTree (t : Token) : (shorthandKeyTree t).IsPlaced P :=
  .tree (.inl rfl) (List.forall_mem_singleton.2 (.leaf t))

theorem isPlaced_operatorLeaves (l : Phrase.Level) (op : Token) :
    ∀ n ∈ operatorLeaves l op, n.IsPlaced P := by
  cases l <;> simp [operatorLeaves, Node.IsPlaced.leaf]

/-- The trees of a part have places of its tokens. -/
theorem isPlaced_of_produces {p : Part} {w : List Token} {ns : List Node} (h : Produces p w ns)
    (hp : p.IsInner) (hw : ∀ t ∈ w, P t.pos) : ∀ n ∈ ns, n.IsPlaced P := by
  induction h with
  | start => exact hp.elim
  | listNil | statementsNil => simp
  | listLast _ ih => exact ih (isInner_item hp) hw
  | levelOperand _ ih => exact ih (isInner_operand _) hw
  | expressionArrow _ ih | expressionConditional _ ih | bodyBlock _ ih | bodyExpression _ ih
  | conditionalOperand _ ih | unarySuffixed _ ih | suffixedPrimary _ ih | primaryArray _ ih
  | primaryObject _ ih | statementsLast _ ih | simpleDeclaration _ ih | simpleReturn _ ih
  | simpleThrow _ ih | compoundFunction _ ih | compoundIf _ ih => exact ih trivial hw
  | listMore _ _ _ ihItem ihItems =>
      simp only [List.forall_mem_append, List.forall_mem_cons] at hw
      exact isPlaced_cons (ihItem (isInner_item hp) hw.1) (ihItems hp hw.2.2)
  | statementsSimple _ _ _ ihFirst ihOthers =>
      simp only [List.forall_mem_append, List.forall_mem_cons] at hw
      exact isPlaced_cons (ihFirst trivial hw.1) (ihOthers trivial hw.2.2)
  | statementsCompound _ _ ihFirst ihOthers =>
      simp only [List.forall_mem_append] at hw
      exact isPlaced_cons (ihFirst trivial hw.1) (ihOthers trivial hw.2)
  | statementsSemicolon _ _ ih =>
      simp only [List.forall_mem_cons] at hw
      exact ih trivial hw.2
  | parenthesized _ _ _ ih =>
      simp only [List.forall_mem_cons, List.forall_mem_append] at hw
      exact ih trivial hw.2.1
  -- Trees with the place of their first token, which is a terminal.
  | patternName => simpa using isPlaced_bindTree (hw _ (.head _))
  | reference => simpa using isPlaced_referenceTree (hw _ (.head _))
  | number | string | trueWord | falseWord | returnNothing =>
      refine List.forall_mem_singleton.2 (.placed (hw _ (.head _)) ?_)
      simp [Node.IsPlaced.leaf]
  | patternShorthand =>
      have ht := hw _ (.head _)
      refine List.forall_mem_singleton.2 (.placed ht ?_)
      simpa using ⟨isPlaced_shorthandKeyTree _, isPlaced_bindTree ht⟩
  | fieldShorthand =>
      have ht := hw _ (.head _)
      refine List.forall_mem_singleton.2 (.placed ht ?_)
      simpa using ⟨isPlaced_shorthandKeyTree _, isPlaced_referenceTree ht⟩
  | patternArray _ _ _ ih | patternRecord _ _ _ ih | params _ _ _ ih | array _ _ _ ih
  | object _ _ _ ih | block _ _ _ ih =>
      simp only [List.forall_mem_cons, List.forall_mem_append] at hw
      exact List.forall_mem_singleton.2 (.placed hw.1 (ih trivial hw.2.1))
  | patternField _ _ _ ih | field _ _ _ ih =>
      simp only [List.forall_mem_cons] at hw
      refine List.forall_mem_singleton.2 (.placed hw.1 (List.forall_mem_cons.2 ⟨?_, ?_⟩))
      · exact isPlaced_keyTree hw.1
      · exact ih trivial hw.2.2
  | arrowName _ _ _ ih =>
      simp only [List.forall_mem_cons] at hw
      refine List.forall_mem_singleton.2 (.placed hw.1 (List.forall_mem_cons.2 ⟨?_, ?_⟩))
      · exact .placed hw.1 (List.forall_mem_singleton.2 (isPlaced_bindTree hw.1))
      · exact ih trivial hw.2.2
  | unaryOperation _ _ ih =>
      simp only [List.forall_mem_cons] at hw
      refine List.forall_mem_singleton.2 (.placed hw.1 (List.forall_mem_cons.2 ⟨.leaf _, ?_⟩))
      exact ih trivial hw.2
  | returnValue _ _ ih | throwValue _ _ ih =>
      simp only [List.forall_mem_cons] at hw
      exact List.forall_mem_singleton.2 (.placed hw.1 (ih trivial hw.2))
  | functionExpression _ _ _ ihParams ihBody =>
      simp only [List.forall_mem_cons, List.forall_mem_append] at hw
      refine List.forall_mem_singleton.2 (.placed hw.1 ?_)
      exact isPlaced_cons (ihParams trivial hw.2.1) (ihBody trivial hw.2.2)
  | declaration _ _ _ _ ihPattern ihValue =>
      simp only [List.forall_mem_cons, List.forall_mem_append] at hw
      refine List.forall_mem_singleton.2 (.placed hw.1 ?_)
      exact isPlaced_cons (ihPattern trivial hw.2.1) (ihValue trivial hw.2.2.2)
  | functionDeclaration _ _ _ _ ihParams ihBody =>
      simp only [List.forall_mem_cons, List.forall_mem_append] at hw
      refine List.forall_mem_singleton.2 (.placed hw.1 (List.forall_mem_cons.2 ⟨.leaf _, ?_⟩))
      exact isPlaced_cons (ihParams trivial hw.2.2.1) (ihBody trivial hw.2.2.2)
  | ifThen _ _ _ _ _ ihCondition ihYes =>
      simp only [List.forall_mem_cons, List.forall_mem_append] at hw
      refine List.forall_mem_singleton.2 (.placed hw.1 ?_)
      exact isPlaced_cons (ihCondition trivial hw.2.2.1) (ihYes trivial hw.2.2.2.2)
  | ifElse _ _ _ _ _ _ _ ihCondition ihYes ihNo | ifElseIf _ _ _ _ _ _ _ ihCondition ihYes ihNo =>
      simp only [List.forall_mem_cons, List.forall_mem_append] at hw
      refine List.forall_mem_singleton.2 (.placed hw.1 ?_)
      exact isPlaced_cons (ihCondition trivial hw.2.2.1)
        (isPlaced_cons (ihYes trivial hw.2.2.2.2.1) (ihNo trivial hw.2.2.2.2.2.2))
  -- Trees that start with another one.
  | expressionStatement h ih =>
      exact List.forall_mem_singleton.2 (.started (nonempty_of_produces h trivial) hw
        (ih trivial hw))
  | arrowParams _ _ _ ihParams ihBody =>
      refine List.forall_mem_singleton.2 (.started (by simp) hw ?_)
      simp only [List.forall_mem_append, List.forall_mem_cons] at hw
      exact isPlaced_cons (ihParams trivial hw.1) (ihBody trivial hw.2.2)
  | ternary _ _ _ _ _ ihCondition ihYes ihNo =>
      refine List.forall_mem_singleton.2 (.started (by simp) hw ?_)
      simp only [List.forall_mem_append, List.forall_mem_cons] at hw
      exact isPlaced_cons (ihCondition trivial hw.1)
        (isPlaced_cons (ihYes trivial hw.2.2.1) (ihNo trivial hw.2.2.2.2))
  | operation _ _ _ ihLeft ihRight =>
      refine List.forall_mem_singleton.2 (.started (by simp) hw ?_)
      simp only [List.forall_mem_append, List.forall_mem_cons] at hw
      have hleft := ihLeft trivial hw.1
      have hright := ihRight (isInner_operand _) hw.2.2
      exact isPlaced_cons hleft (List.forall_mem_append.2 ⟨isPlaced_operatorLeaves _ _, hright⟩)
  | call _ _ _ _ ihCallee ihArgs =>
      refine List.forall_mem_singleton.2 (.started (by simp) hw ?_)
      simp only [List.forall_mem_append, List.forall_mem_cons] at hw
      exact isPlaced_cons (ihCallee trivial hw.1) (ihArgs trivial hw.2.2.1)
  | member _ _ _ ih =>
      refine List.forall_mem_singleton.2 (.started (by simp) hw ?_)
      simp only [List.forall_mem_append] at hw
      exact isPlaced_cons (ih trivial hw.1) (List.forall_mem_singleton.2 (.leaf _))
  | index _ _ _ _ ihReceiver ihPosition =>
      refine List.forall_mem_singleton.2 (.started (by simp) hw ?_)
      simp only [List.forall_mem_append, List.forall_mem_cons] at hw
      exact isPlaced_cons (ihReceiver trivial hw.1) (ihPosition trivial hw.2.2.1)

end Grammar

/-! ## Terms -/

section

variable {P : Position → Prop} {t u : Term} {role : Role}

/-- A term that stands in some text has the place of its tree. -/
theorem Term.IsWritten.place (h : t.IsWritten role) (hnode : t.toNode.IsPlaced P) :
    ∃ p, t.pos = some p ∧ P p := by
  cases h with
  | @truth pos flag =>
      unfold Term.toNode Form.toNode at hnode
      exact hnode.place (by cases flag <;> decide)
  | @logical pos op left right =>
      cases op <;> (unfold Term.toNode Form.toNode at hnode; exact hnode.place (by decide))
  | _ =>
      unfold Term.toNode Form.toNode at hnode
      exact hnode.place (by decide)

theorem isPlaced_toNodes {ts : List Term} (h : ∀ n ∈ Term.toNodes ts, n.IsPlaced P) (hu : u ∈ ts) :
    u.toNode.IsPlaced P := by
  rw [Phrase.toNodes_term] at h
  exact h _ (List.mem_map_of_mem hu)

/-- The parts of a term have the places of trees in its tree. -/
theorem Term.IsWritten.isPlaced_part (h : t.IsWritten role) (hnode : t.toNode.IsPlaced P)
    (hu : u ∈ t.form.parts) : u.toNode.IsPlaced P := by
  cases h with
  | returnNothing | number | string | truth | reference => cases hu
  | program | block | array =>
      unfold Term.toNode Form.toNode at hnode
      exact isPlaced_toNodes hnode.inside hu
  | record hfields =>
      unfold Term.toNode Form.toNode at hnode
      obtain ⟨f, hf, hvalue⟩ := List.mem_filterMap.1 hu
      cases hfields f hf with
      | @mk pos key value =>
          cases hvalue
          have hfield := hnode.inside (Field.mk pos key u).toNode (by
            rw [Phrase.toNodes_field]
            exact List.mem_map_of_mem hf)
          unfold Field.toNode at hfield
          exact hfield.inside _ (by simp)
  | call =>
      unfold Term.toNode Form.toNode at hnode
      rcases List.mem_cons.1 hu with rfl | hu
      · exact hnode.inside _ (.head _)
      · exact isPlaced_toNodes (fun n hn => hnode.inside n (.tail _ hn)) hu
  | @logical pos op left right =>
      simp only [Form.parts, Term.form, List.mem_cons, List.not_mem_nil, or_false] at hu
      cases op <;>
      · unfold Term.toNode Form.toNode at hnode
        rcases hu with rfl | rfl <;> exact hnode.inside _ (by simp)
  | ifThenElse | conditional =>
      unfold Term.toNode Form.toNode at hnode
      simp only [Form.parts, Term.form, List.mem_cons, List.not_mem_nil, or_false] at hu
      rcases hu with rfl | rfl | rfl <;> exact hnode.inside _ (by simp)
  | ifThen | index | binary | compare =>
      unfold Term.toNode Form.toNode at hnode
      simp only [Form.parts, Term.form, List.mem_cons, List.not_mem_nil, or_false] at hu
      rcases hu with rfl | rfl <;> exact hnode.inside _ (by simp)
  | _ =>
      unfold Term.toNode Form.toNode at hnode
      rw [List.mem_singleton.1 hu]
      exact hnode.inside _ (by simp)

theorem Term.IsWritten.has_isPlaced (h : t.IsWritten role) (hnode : t.toNode.IsPlaced P)
    (hu : t.Has u) : u.toNode.IsPlaced P := by
  induction hu with
  | refl => exact hnode
  | @tail b c hhas hpart ih =>
      have hb : t.Has b := hhas
      obtain ⟨role', hwritten⟩ := hb.isWritten h
      exact hwritten.isPlaced_part ih hpart

end

/-! ## Programs -/

theorem Grammar.eq_nil_of_statements {ns : List Node} (h : Produces .statements [] ns) :
    ns = [] := by
  generalize hw : ([] : List Token) = w at h
  cases h with
  | statementsNil => rfl
  | statementsLast h => exact absurd hw.symm (nonempty_of_produces h trivial)
  | statementsSemicolon => cases hw
  | statementsSimple => simp at hw
  | statementsCompound h =>
      exact absurd (List.append_eq_nil_iff.1 hw.symm).1 (nonempty_of_produces h trivial)

/-- Every term of a program that is read from a text has the place of a token of the text, unless the
program has no statements. -/
theorem Program.place_of_has {code : String} {t u : Term} (h : Program.read code.toList = .ok t)
    (hu : t.Has u) :
    (∃ p, u.pos = some p ∧ IsPlaceOf (tokensOf code.toList).1 p) ∨ u.form = .program [] := by
  have hwritten := Session.isWritten_of_read h
  obtain ⟨-, hprogram⟩ := Program.tokens_of_read h
  have hproduces := Phrase.produces_of_program (genuine_tokensOf code.toList) hprogram
  obtain ⟨body, -, rfl⟩ := Phrase.statements_of_program hprogram
  generalize (tokensOf code.toList).1 = w at hproduces hwritten hu
  have hnode : (Term.node (startOf w) (.program body)).toNode =
      .tree "program" (startOf w) (Term.toNodes body) := by
    unfold Term.toNode Form.toNode
    rfl
  rw [hnode] at hproduces
  cases hproduces with
  | start hstatements =>
      cases w with
      | nil =>
          -- Without tokens there are no statements, so that the program is its only term.
          have hnone := Grammar.eq_nil_of_statements hstatements
          cases body with
          | cons t ts => cases hnone
          | nil =>
              rcases Relation.ReflTransGen.cases_head hu with rfl | ⟨_, hpart, -⟩
              · exact .inr rfl
              · cases hpart
      | cons first rest =>
          have hplaces : ∀ t ∈ first :: rest, IsPlaceOf (first :: rest) t.pos :=
            fun t ht => ⟨t, ht, rfl⟩
          have hroot : (Node.tree "program" (startOf (first :: rest)) (Term.toNodes body)).IsPlaced
              (IsPlaceOf (first :: rest)) :=
            .started (by simp) hplaces (Grammar.isPlaced_of_produces hstatements trivial hplaces)
          rw [← hnode] at hroot
          obtain ⟨role, hrole⟩ := hu.isWritten hwritten
          exact .inl (hrole.place (hwritten.has_isPlaced hroot hu))

end VariantScript.Syntax
