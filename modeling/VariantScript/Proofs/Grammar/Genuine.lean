import VariantScript.Proofs.Grammar.Production

/-!
# Genuine tokens

Every kind of token has an instance, every part of a script is written in instances, and the text of
an instance that is a mark is one of the marks of its kind.  The last is why an operator can be
spelled again from what it means.
-/

namespace VariantScript.Syntax

/-- Tokens that are all instances of their kinds. -/
def Genuine (ts : List Token) : Prop :=
  ∀ t ∈ ts, t.IsGenuine

@[simp] theorem genuine_nil : Genuine [] := by
  simp [Genuine]

@[simp] theorem genuine_cons {t : Token} {ts : List Token} :
    Genuine (t :: ts) ↔ t.IsGenuine ∧ Genuine ts := by
  simp [Genuine]

@[simp] theorem genuine_append {ts us : List Token} :
    Genuine (ts ++ us) ↔ Genuine ts ∧ Genuine us := by
  simp [Genuine, or_imp, forall_and]

theorem Genuine.head {t : Token} {ts : List Token} (h : Genuine (t :: ts)) : t.IsGenuine :=
  (genuine_cons.1 h).1

theorem Genuine.tail {t : Token} {ts : List Token} (h : Genuine (t :: ts)) : Genuine ts :=
  (genuine_cons.1 h).2

theorem Genuine.is {t : Token} {ts : List Token} (h : Genuine (t :: ts)) {kind : TokenKind}
    (hkind : t.kind = kind) : t.Is kind :=
  ⟨hkind, h.head⟩

/-! ## Instances -/

/-- A text that is an instance of a kind of token. -/
def TokenKind.sampleText : TokenKind → String
  | .number => "0"
  | .name => "x"
  | .string => "\"\""
  | .keyword word => word.spelling
  | kind => String.ofList ((Terminal.marks kind).headD [])

/-- An instance of a kind of token. -/
def TokenKind.sample (kind : TokenKind) : Token :=
  ⟨kind, kind.sampleText, .start⟩

/-- Every kind of token has an instance. -/
theorem TokenKind.sample_is (kind : TokenKind) : kind.sample.Is kind := by
  refine ⟨rfl, ?_⟩
  cases kind with
  | keyword word => exact rfl
  | name => exact ⟨⟨by decide, [], by decide⟩, by decide⟩
  | _ => exact ⟨by decide, [], by decide⟩

/-! ## Marks -/

/-- What a terminal of fixed marks takes is one of its marks. -/
theorem mem_of_markLength {marks : List (List Char)} {text rest : List Char} (hne : text ≠ [])
    (h : Terminal.markLength marks (text ++ rest) = text.length) : text ∈ marks := by
  unfold Terminal.markLength at h
  cases hfind : marks.find? fun mark => mark.isPrefixOf (text ++ rest) with
  | none =>
      rw [hfind] at h
      exact absurd (List.length_eq_zero_iff.1 h.symm) hne
  | some mark =>
      rw [hfind] at h
      have hprefix : mark <+: text ++ rest := by
        simpa using List.find?_some hfind
      have hmark : mark = text := by
        refine List.IsPrefix.eq_of_length ?_ h
        exact List.prefix_of_prefix_length_le hprefix (List.prefix_append text rest)
          (Nat.le_of_eq h)
      rw [← hmark]
      exact List.mem_of_find?_eq_some hfind

/-- The text of an instance of a mark is one of the marks. -/
theorem Token.Is.text_mem {t : Token} {kind : TokenKind} (h : t.Is kind)
    (hmarks : Terminal.marks kind ≠ []) : t.text.toList ∈ Terminal.marks kind := by
  obtain ⟨rfl, hgenuine⟩ := h
  unfold Token.IsGenuine at hgenuine
  split at hgenuine
  · exact absurd (by simp [*, Terminal.marks]) hmarks
  · exact absurd (by simp [*, Terminal.marks]) hmarks
  · obtain ⟨hne, rest, htakes⟩ := hgenuine
    have hlength : Terminal.markLength (Terminal.marks t.kind) (t.text.toList ++ rest) =
        t.text.toList.length := by
      rw [← htakes]
      unfold Terminal.matchLength
      cases hkind : t.kind <;> simp_all [Terminal.marks]
    exact mem_of_markLength hne hlength

theorem toList_eq_iff {s : String} {cs : List Char} : s.toList = cs ↔ s = String.ofList cs := by
  constructor
  · rintro rfl
    simp
  · rintro rfl
    simp

theorem bang_text {t : Token} (h : t.Is .bang) : t.text = "!" := by
  simpa [Terminal.marks, toList_eq_iff] using h.text_mem (by simp [Terminal.marks])

theorem minus_text {t : Token} (h : t.Is .minus) : t.text = "-" := by
  simpa [Terminal.marks, toList_eq_iff] using h.text_mem (by simp [Terminal.marks])

theorem plus_text {t : Token} (h : t.Is .plus) : t.text = "+" := by
  simpa [Terminal.marks, toList_eq_iff] using h.text_mem (by simp [Terminal.marks])

theorem mulOp_text {t : Token} (h : t.Is .mulOp) :
    t.text = "*" ∨ t.text = "/" ∨ t.text = "%" := by
  simpa [Terminal.marks, toList_eq_iff] using h.text_mem (by simp [Terminal.marks])

theorem eqOp_text {t : Token} (h : t.Is .eqOp) :
    t.text = "===" ∨ t.text = "!==" ∨ t.text = "==" ∨ t.text = "!=" := by
  simpa [Terminal.marks, toList_eq_iff] using h.text_mem (by simp [Terminal.marks])

theorem relOp_text {t : Token} (h : t.Is .relOp) :
    t.text = "<=" ∨ t.text = ">=" ∨ t.text = "<" ∨ t.text = ">" := by
  simpa [Terminal.marks, toList_eq_iff] using h.text_mem (by simp [Terminal.marks])

namespace Grammar

open Phrase (Level)

/-- The tree of two operands that an operator joins. -/
theorem toNode_combine {l : Level} {op : Token} (h : op.IsOperator l) (pos : Option Position)
    (left right : Term) :
    (Term.node pos (l.combine op left right)).toNode =
      .tree (operationLabel l) pos (left.toNode :: (operatorLeaves l op ++ [right.toNode])) := by
  obtain ⟨haccepts, hgenuine⟩ := h
  cases l with
  | or => rfl
  | and => rfl
  | equality =>
      have hkind : op.kind = .eqOp := by simpa [Level.accepts] using haccepts
      rcases eqOp_text ⟨hkind, hgenuine⟩ with htext | htext | htext | htext <;>
        simp [Level.combine, Term.toNode, Form.toNode, operationLabel, operatorLeaves, Token.leaf,
          Token.spelled, htext, hkind, CompareOp.ofSpelling, CompareOp.kind, CompareOp.spelling]
  | relation =>
      have hkind : op.kind = .relOp := by simpa [Level.accepts] using haccepts
      rcases relOp_text ⟨hkind, hgenuine⟩ with htext | htext | htext | htext <;>
        simp [Level.combine, Term.toNode, Form.toNode, operationLabel, operatorLeaves, Token.leaf,
          Token.spelled, htext, hkind, CompareOp.ofSpelling, CompareOp.kind, CompareOp.spelling]
  | sum =>
      have hkind : op.kind = .plus ∨ op.kind = .minus := by simpa [Level.accepts] using haccepts
      rcases hkind with hkind | hkind
      · simp [Level.combine, Term.toNode, Form.toNode, operationLabel, operatorLeaves, Token.leaf,
          Token.spelled, plus_text ⟨hkind, hgenuine⟩, hkind, BinaryOp.ofSpelling, BinaryOp.kind,
          BinaryOp.spelling]
      · simp [Level.combine, Term.toNode, Form.toNode, operationLabel, operatorLeaves, Token.leaf,
          Token.spelled, minus_text ⟨hkind, hgenuine⟩, hkind, BinaryOp.ofSpelling, BinaryOp.kind,
          BinaryOp.spelling]
  | product =>
      have hkind : op.kind = .mulOp := by simpa [Level.accepts] using haccepts
      rcases mulOp_text ⟨hkind, hgenuine⟩ with htext | htext | htext <;>
        simp [Level.combine, Term.toNode, Form.toNode, operationLabel, operatorLeaves, Token.leaf,
          Token.spelled, htext, hkind, BinaryOp.ofSpelling, BinaryOp.kind, BinaryOp.spelling]

/-! ## Parts of scripts -/

theorem isKey_genuine {k : Token} (h : k.IsKey) : k.IsGenuine := by
  rcases h with h | h <;> exact h.2

theorem isDeclarator_genuine {t : Token} (h : t.IsDeclarator) : t.IsGenuine := by
  rcases h with h | h | h <;> exact h.2

theorem isPrefixOperator_genuine {op : Token} (h : op.IsPrefixOperator) : op.IsGenuine := by
  rcases h with h | h <;> exact h.2

/-- Every part of a script is written in genuine tokens. -/
theorem genuine_of_produces {p : Part} {w : List Token} {ns : List Node} (h : Produces p w ns) :
    Genuine w := by
  induction h with
  | listNil | statementsNil => exact genuine_nil
  | listLast _ ih | expressionArrow _ ih | expressionConditional _ ih | bodyBlock _ ih
  | bodyExpression _ ih | conditionalOperand _ ih | levelOperand _ ih | unarySuffixed _ ih
  | suffixedPrimary _ ih | primaryArray _ ih | primaryObject _ ih | start _ ih
  | statementsLast _ ih | simpleDeclaration _ ih | simpleReturn _ ih | simpleThrow _ ih
  | expressionStatement _ ih | compoundFunction _ ih | compoundIf _ ih => exact ih
  | patternName ht | patternShorthand ht | number ht | string ht | trueWord ht | falseWord ht
  | reference ht | fieldShorthand ht | returnNothing ht => simp [ht.2]
  | patternArray ho _ hc ih | patternRecord ho _ hc ih | params ho _ hc ih
  | parenthesized ho _ hc ih | array ho _ hc ih | object ho _ hc ih | block ho _ hc ih =>
      simp [ho.2, ih, hc.2]
  | patternField hk hc _ ih | field hk hc _ ih => simp [isKey_genuine hk, hc.2, ih]
  | listMore _ h _ ihFirst ihSecond | arrowParams _ h _ ihFirst ihSecond
  | operation _ h _ ihFirst ihSecond | statementsSimple _ h _ ihFirst ihSecond =>
      simp [h.2, ihFirst, ihSecond]
  | arrowName h h' _ ih => simp [h.2, h'.2, ih]
  | statementsCompound _ _ ihFirst ihSecond => simp [ihFirst, ihSecond]
  | ternary _ hq _ hc _ ihCondition ihYes ihNo => simp [ihCondition, hq.2, ihYes, hc.2, ihNo]
  | unaryOperation hop _ ih => simp [isPrefixOperator_genuine hop, ih]
  | call _ ho _ hc ihFirst ihSecond | index _ ho _ hc ihFirst ihSecond =>
      simp [ihFirst, ho.2, ihSecond, hc.2]
  | member _ ho ht ih => simp [ih, ho.2, ht.2]
  | functionExpression ht _ _ ihFirst ihSecond => simp [ht.2, ihFirst, ihSecond]
  | statementsSemicolon h _ ih | returnValue h _ ih | throwValue h _ ih => simp [h.2, ih]
  | declaration ht _ ho _ ihFirst ihSecond =>
      simp [isDeclarator_genuine ht, ihFirst, ho.2, ihSecond]
  | functionDeclaration ht hn _ _ ihFirst ihSecond => simp [ht.2, hn.2, ihFirst, ihSecond]
  | ifThen ht ho _ hc _ ihCondition ihYes => simp [ht.2, ho.2, ihCondition, hc.2, ihYes]
  | ifElse ht ho _ hc _ hq _ ihCondition ihYes ihNo
  | ifElseIf ht ho _ hc _ hq _ ihCondition ihYes ihNo =>
      simp [ht.2, ho.2, ihCondition, hc.2, ihYes, hq.2, ihNo]

end Grammar

end VariantScript.Syntax
