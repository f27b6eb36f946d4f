import VariantScript.Proofs.Grammar.Meaning

/-!
# Derivations and productions

A rule derives tokens with a tree exactly if the productions give the normalized tree: every
production is put together by the rules.
-/

namespace VariantScript.Syntax.Grammar

open Phrase (Level)

/-- What the rules say about a part. -/
def Part.Means : Part → List Token → List Node → Prop
  | .one r, w, ns => ∃ n, Reads r w n ∧ ns = [n.normalize]
  | .list r, w, ns =>
      ∃ xs, Derives (Expansion.commaList (.rule r)) w xs ∧ ns = Node.normalizeAll xs
  | .statements, w, ns => ∃ xs, Derives Expansion.statements w xs ∧ ns = Node.normalizeAll xs
  | .body, w, ns =>
      ∃ n, Derives (.either (.rule .block) (.rule .expression)) w [n] ∧ ns = [n.normalize]

/-- An item and a comma before a list of the same items. -/
theorem derives_commaList_cons {e : Expansion} {u v : List Token} {xs ys : List Node} {c : Token}
    (item : Derives e u xs) (hc : c.Is .comma) (items : Derives (Expansion.commaList e) v ys) :
    Derives (Expansion.commaList e) (u ++ c :: v) (xs ++ ys) := by
  -- A list behind a comma is empty only if the comma was the last token of the whole list.
  cases items with
  | optionalNone =>
      have h : Derives (Expansion.commaList e) _ _ :=
        .optionalSome (.seq item (.seq .manyNone (.optionalSome (.mark hc))))
      simpa using h
  | optionalSome h =>
      cases h with
      | seq first others =>
          cases others with
          | seq more trailing =>
              have h : Derives (Expansion.commaList e) _ _ :=
                .optionalSome (.seq item (.seq (.manyMore (.seq (.mark hc) first) more) trailing))
              simpa using h

theorem reads_of_mem {r : Rule} {e : Expansion} {label? : Option String} {w : List Token}
    {xs : List Node} {n : Node} (mem : (e, label?) ∈ r.alternatives) (body : Derives e w xs)
    (hn : r.build label? w xs = [n]) : Reads r w n := by
  unfold Reads
  rw [← hn]
  exact .rule mem body

theorem reads_key {k : Token} (hk : k.IsKey) : Reads .key [k] (keyTree k) := by
  rcases hk with h | h
  · apply reads_of_mem (.head _) (.terminal h)
    simp [Rule.build, Rule.shape, Rule.label, startOf, keyTree, leaf_of_is h]
  · apply reads_of_mem (.tail _ (.head _)) (.terminal h)
    simp [Rule.build, Rule.shape, Rule.label, startOf, keyTree, leaf_of_is h]

theorem derives_statements_cons {u v : List Token} {xs ys : List Node}
    (first : Derives (.rule .terminated) u xs) (others : Derives Expansion.statements v ys) :
    Derives Expansion.statements (u ++ v) (xs ++ ys) := by
  cases others with
  | seq items last =>
      have h : Derives Expansion.statements _ _ := .seq (.manyMore first items) last
      simpa using h

theorem derives_operators {l : Level} {op : Token} (h : op.IsOperator l) :
    Derives (Expansion.operators l) [op] (operatorLeaves l op) := by
  obtain ⟨hkind, hg⟩ := h
  cases l with
  | or | and =>
      have hk := of_decide_eq_true hkind
      exact .mark ⟨hk, hg⟩
  | equality | relation | product =>
      have hk := of_decide_eq_true hkind
      have := Derives.terminal ⟨hk, hg⟩
      rwa [leaf_of_is ⟨hk, hg⟩] at this
  | sum =>
      simp only [Level.accepts, Bool.or_eq_true, decide_eq_true_eq] at hkind
      rcases hkind with hk | hk
      · have := Derives.eitherFirst (b := .terminal .minus) (Derives.terminal ⟨hk, hg⟩)
        rwa [leaf_of_is ⟨hk, hg⟩] at this
      · have := Derives.eitherSecond (a := .terminal .plus) (Derives.terminal ⟨hk, hg⟩)
        rwa [leaf_of_is ⟨hk, hg⟩] at this

theorem derives_declarator {t : Token} (h : t.IsDeclarator) :
    Derives (.either (Expansion.word .constWord)
      (.either (Expansion.word .letWord) (Expansion.word .varWord))) [t] [] := by
  rcases h with h | h | h
  · exact .eitherFirst (.mark h)
  · exact .eitherSecond (.eitherFirst (.mark h))
  · exact .eitherSecond (.eitherSecond (.mark h))

theorem means_of_produces {p : Part} {w : List Token} {ns : List Node} (h : Produces p w ns) :
    p.Means w ns := by
  -- Each production names the alternative that it comes from by its place in the list.
  induction h with
  | listNil => exact ⟨[], .optionalNone, rfl⟩
  | listLast _ ih =>
      obtain ⟨x, hx, ⟨⟩⟩ := ih
      have h : Derives (Expansion.commaList _) _ _ :=
        .optionalSome (.seq hx (.seq .manyNone .optionalNone))
      exact ⟨_, by simpa using h, by simp⟩
  | listMore _ hc _ ihItem ihItems =>
      obtain ⟨x, hx, ⟨⟩⟩ := ihItem
      obtain ⟨xs, hxs, rfl⟩ := ihItems
      exact ⟨_, derives_commaList_cons hx hc hxs, by simp⟩
  | patternName ht =>
      refine ⟨_, reads_of_mem (.head _) (.terminal ht) rfl, ?_⟩
      simp [Node.respell, startOf, leaf_of_is ht, bindTree]
  | patternArray ho _ hc ih =>
      obtain ⟨xs, hxs, rfl⟩ := ih
      refine ⟨_, reads_of_mem (.tail _ (.head _)) (.seq (.mark ho) (.seq hxs (.mark hc))) rfl, ?_⟩
      simp [Node.respell, startOf]
  | patternRecord ho _ hc ih =>
      obtain ⟨xs, hxs, rfl⟩ := ih
      refine ⟨_, reads_of_mem (.tail _ (.tail _ (.head _)))
        (.seq (.mark ho) (.seq hxs (.mark hc))) rfl, ?_⟩
      simp [Node.respell, startOf]
  | patternField hk hc _ ih =>
      obtain ⟨x, hx, ⟨⟩⟩ := ih
      refine ⟨_, reads_of_mem (.head _) (.seq (reads_key hk) (.seq (.mark hc) hx)) rfl, ?_⟩
      simp [Node.respell, startOf, Rule.label, keyTree]
  | patternShorthand ht =>
      refine ⟨_, reads_of_mem (.tail _ (.head _)) (.terminal ht) rfl, ?_⟩
      simp [Node.respell, startOf, leaf_of_is ht, shorthandKeyTree, bindTree]
  | params ho _ hc ih =>
      obtain ⟨xs, hxs, rfl⟩ := ih
      refine ⟨_, reads_of_mem (.head _) (.seq (.mark ho) (.seq hxs (.mark hc))) rfl, ?_⟩
      simp [Node.respell, startOf, Rule.label]
  | expressionArrow _ ih =>
      obtain ⟨x, hx, ⟨⟩⟩ := ih
      exact ⟨x, reads_of_mem (.head _) hx rfl, rfl⟩
  | expressionConditional _ ih =>
      obtain ⟨x, hx, ⟨⟩⟩ := ih
      exact ⟨x, reads_of_mem (.tail _ (.head _)) hx rfl, rfl⟩
  -- Productions put a lone parameter under `params`; the rule leaves that to normalization.
  | arrowName ht ha _ ih =>
      obtain ⟨x, hx, ⟨⟩⟩ := ih
      have single : Reads .singleParam _ _ := reads_of_mem (.head _) (.terminal ht) rfl
      refine ⟨_, reads_of_mem (.head _) (.seq (.eitherFirst single) (.seq (.mark ha) hx)) rfl, ?_⟩
      simp [Node.respell, startOf, Rule.label, leaf_of_is ht, bindTree]
  | arrowParams ps ha _ ihParams ihBody =>
      obtain ⟨x, hx, ⟨⟩⟩ := ihParams
      obtain ⟨y, hy, ⟨⟩⟩ := ihBody
      obtain ⟨ns, hns⟩ := params_label ps
      refine ⟨_, reads_of_mem (.head _) (.seq (.eitherSecond hx) (.seq (.mark ha) hy)) rfl, ?_⟩
      simp [Node.respell, Rule.label, hns]
  | bodyBlock _ ih =>
      obtain ⟨x, hx, ⟨⟩⟩ := ih
      exact ⟨x, .eitherFirst hx, rfl⟩
  | bodyExpression _ ih =>
      obtain ⟨x, hx, ⟨⟩⟩ := ih
      exact ⟨x, .eitherSecond hx, rfl⟩
  | conditionalOperand _ ih =>
      obtain ⟨x, hx, ⟨⟩⟩ := ih
      exact ⟨x, reads_of_mem (.head _) hx rfl, rfl⟩
  | ternary _ hq _ hc _ ihCondition ihYes ihNo =>
      obtain ⟨x, hx, ⟨⟩⟩ := ihCondition
      obtain ⟨y, hy, ⟨⟩⟩ := ihYes
      obtain ⟨z, hz, ⟨⟩⟩ := ihNo
      refine ⟨_, reads_of_mem (.tail _ (.head _))
        (.seq hx (.seq (.mark hq) (.seq hy (.seq (.mark hc) hz)))) rfl, ?_⟩
      simp [Node.respell]
  | levelOperand _ ih =>
      obtain ⟨x, hx, ⟨⟩⟩ := ih
      exact ⟨x, reads_of_mem (.head _) hx rfl, rfl⟩
  | @operation l _ _ _ _ _ _ hop _ ihLeft ihRight =>
      obtain ⟨x, hx, ⟨⟩⟩ := ihLeft
      obtain ⟨y, hy, ⟨⟩⟩ := ihRight
      refine ⟨_, reads_of_mem (.tail _ (.head _)) (.seq hx (.seq (derives_operators hop) hy)) rfl,
        ?_⟩
      have hlabel := operationLabel_notMem l
      simp [Node.respell_of_ne _ _ hlabel, normalizeAll_operatorLeaves]
  | unarySuffixed _ ih =>
      obtain ⟨x, hx, ⟨⟩⟩ := ih
      exact ⟨x, reads_of_mem (.head _) hx rfl, rfl⟩
  | unaryOperation hop _ ih =>
      obtain ⟨x, hx, ⟨⟩⟩ := ih
      rcases hop with h | h
      · refine ⟨_, reads_of_mem (.tail _ (.head _)) (.seq (.eitherFirst (.terminal h)) hx) rfl, ?_⟩
        simp [Node.respell, startOf, leaf_of_is h]
      · refine ⟨_, reads_of_mem (.tail _ (.head _)) (.seq (.eitherSecond (.terminal h)) hx) rfl, ?_⟩
        simp [Node.respell, startOf, leaf_of_is h]
  | suffixedPrimary _ ih =>
      obtain ⟨x, hx, ⟨⟩⟩ := ih
      exact ⟨x, reads_of_mem (.head _) hx rfl, rfl⟩
  | call _ ho _ hc ihCallee ihArgs =>
      obtain ⟨x, hx, ⟨⟩⟩ := ihCallee
      obtain ⟨xs, hxs, rfl⟩ := ihArgs
      refine ⟨_, reads_of_mem (.tail _ (.head _))
        (.seq hx (.seq (.mark ho) (.seq hxs (.mark hc)))) rfl, ?_⟩
      simp [Node.respell]
  | member _ ho ht ih =>
      obtain ⟨x, hx, ⟨⟩⟩ := ih
      refine ⟨_, reads_of_mem (.tail _ (.tail _ (.head _)))
        (.seq hx (.seq (.mark ho) (.terminal ht))) rfl, ?_⟩
      simp [Node.respell, leaf_of_is ht]
  | index _ ho _ hc ihReceiver ihPosition =>
      obtain ⟨x, hx, ⟨⟩⟩ := ihReceiver
      obtain ⟨y, hy, ⟨⟩⟩ := ihPosition
      refine ⟨_, reads_of_mem (.tail _ (.tail _ (.tail _ (.head _))))
        (.seq hx (.seq (.mark ho) (.seq hy (.mark hc)))) rfl, ?_⟩
      simp [Node.respell]
  | number ht =>
      refine ⟨_, reads_of_mem (.head _) (.terminal ht) rfl, ?_⟩
      simp [Node.respell, startOf, leaf_of_is ht]
  | string ht =>
      refine ⟨_, reads_of_mem (.tail _ (.head _)) (.terminal ht) rfl, ?_⟩
      simp [Node.respell, startOf, leaf_of_is ht]
  | trueWord ht =>
      refine ⟨_, reads_of_mem (.tail _ (.tail _ (.head _))) (.mark ht) rfl, ?_⟩
      simp [Node.respell, startOf]
  | falseWord ht =>
      refine ⟨_, reads_of_mem (.tail _ (.tail _ (.tail _ (.head _)))) (.mark ht) rfl, ?_⟩
      simp [Node.respell, startOf]
  | reference ht =>
      refine ⟨_, reads_of_mem (.tail _ (.tail _ (.tail _ (.tail _ (.head _))))) (.terminal ht) rfl,
        ?_⟩
      simp [Node.respell, startOf, leaf_of_is ht, referenceTree]
  | primaryArray _ ih =>
      obtain ⟨x, hx, ⟨⟩⟩ := ih
      exact ⟨x, reads_of_mem (.tail _ (.tail _ (.tail _ (.tail _ (.tail _ (.head _)))))) hx rfl,
        rfl⟩
  | primaryObject _ ih =>
      obtain ⟨x, hx, ⟨⟩⟩ := ih
      refine ⟨x, reads_of_mem
        (.tail _ (.tail _ (.tail _ (.tail _ (.tail _ (.tail _ (.head _))))))) hx rfl, rfl⟩
  | functionExpression ht _ _ ihParams ihBody =>
      obtain ⟨x, hx, ⟨⟩⟩ := ihParams
      obtain ⟨y, hy, ⟨⟩⟩ := ihBody
      refine ⟨_, reads_of_mem
        (.tail _ (.tail _ (.tail _ (.tail _ (.tail _ (.tail _ (.tail _ (.head _))))))))
        (.seq (.mark ht) (.seq hx hy)) rfl, ?_⟩
      simp [Node.respell, startOf]
  | parenthesized ho _ hc ih =>
      obtain ⟨x, hx, ⟨⟩⟩ := ih
      exact ⟨x, reads_of_mem
        (.tail _ (.tail _ (.tail _ (.tail _ (.tail _ (.tail _ (.tail _ (.tail _ (.head _)))))))))
        (.seq (.mark ho) (.seq hx (.mark hc))) rfl, rfl⟩
  | array ho _ hc ih =>
      obtain ⟨xs, hxs, rfl⟩ := ih
      refine ⟨_, reads_of_mem (.head _) (.seq (.mark ho) (.seq hxs (.mark hc))) rfl, ?_⟩
      simp [Node.respell, startOf, Rule.label]
  | object ho _ hc ih =>
      obtain ⟨xs, hxs, rfl⟩ := ih
      refine ⟨_, reads_of_mem (.head _) (.seq (.mark ho) (.seq hxs (.mark hc))) rfl, ?_⟩
      simp [Node.respell, startOf, Rule.label]
  | field hk hc _ ih =>
      obtain ⟨x, hx, ⟨⟩⟩ := ih
      refine ⟨_, reads_of_mem (.head _) (.seq (reads_key hk) (.seq (.mark hc) hx)) rfl, ?_⟩
      simp [Node.respell, startOf, Rule.label, keyTree]
  | fieldShorthand ht =>
      refine ⟨_, reads_of_mem (.tail _ (.head _)) (.terminal ht) rfl, ?_⟩
      simp [Node.respell, startOf, leaf_of_is ht, shorthandKeyTree, referenceTree]
  | start _ ih =>
      obtain ⟨xs, hxs, rfl⟩ := ih
      refine ⟨_, reads_of_mem (.head _) hxs rfl, ?_⟩
      simp [Node.respell, Rule.label]
  | statementsNil => exact ⟨[], .seq .manyNone .optionalNone, rfl⟩
  | statementsLast _ ih =>
      obtain ⟨x, hx, ⟨⟩⟩ := ih
      exact ⟨[x], .seq .manyNone (.optionalSome hx), by simp⟩
  | statementsSemicolon hs _ ih =>
      obtain ⟨xs, hxs, rfl⟩ := ih
      exact ⟨_, derives_statements_cons (.rule (.tail _ (.tail _ (.head _))) (.mark hs)) hxs, rfl⟩
  | statementsSimple _ hs _ ihFirst ihOthers =>
      obtain ⟨x, hx, ⟨⟩⟩ := ihFirst
      obtain ⟨xs, hxs, rfl⟩ := ihOthers
      refine ⟨x :: xs, ?_, by simp⟩
      simpa [Rule.build, Rule.shape] using
        derives_statements_cons (.rule (.head _) (.seq hx (.mark hs))) hxs
  | statementsCompound _ _ ihFirst ihOthers =>
      obtain ⟨x, hx, ⟨⟩⟩ := ihFirst
      obtain ⟨xs, hxs, rfl⟩ := ihOthers
      refine ⟨_, derives_statements_cons (.rule (.tail _ (.head _)) hx) hxs, ?_⟩
      simp [Rule.build, Rule.shape]
  | block ho _ hc ih =>
      obtain ⟨xs, hxs, rfl⟩ := ih
      refine ⟨_, reads_of_mem (.head _) (.seq (.mark ho) (.seq hxs (.mark hc))) rfl, ?_⟩
      simp [Node.respell, startOf, Rule.label]
  | simpleDeclaration _ ih =>
      obtain ⟨x, hx, ⟨⟩⟩ := ih
      exact ⟨x, reads_of_mem (.head _) hx rfl, rfl⟩
  | simpleReturn _ ih =>
      obtain ⟨x, hx, ⟨⟩⟩ := ih
      exact ⟨x, reads_of_mem (.tail _ (.head _)) hx rfl, rfl⟩
  | simpleThrow _ ih =>
      obtain ⟨x, hx, ⟨⟩⟩ := ih
      exact ⟨x, reads_of_mem (.tail _ (.tail _ (.head _))) hx rfl, rfl⟩
  | expressionStatement _ ih =>
      obtain ⟨x, hx, ⟨⟩⟩ := ih
      refine ⟨_, reads_of_mem (.tail _ (.tail _ (.tail _ (.head _)))) hx rfl, ?_⟩
      simp [Node.respell]
  | declaration ht _ ho _ ihPattern ihValue =>
      obtain ⟨x, hx, ⟨⟩⟩ := ihPattern
      obtain ⟨y, hy, ⟨⟩⟩ := ihValue
      refine ⟨_, reads_of_mem (.head _)
        (.seq (derives_declarator ht) (.seq hx (.seq (.mark ho) hy))) rfl, ?_⟩
      simp [Node.respell, startOf, Rule.label]
  | returnNothing ht =>
      refine ⟨_, reads_of_mem (.head _) (.seq (.mark ht) .optionalNone) rfl, ?_⟩
      simp [Node.respell, startOf, Rule.label]
  | returnValue ht _ ih =>
      obtain ⟨x, hx, ⟨⟩⟩ := ih
      refine ⟨_, reads_of_mem (.head _) (.seq (.mark ht) (.optionalSome hx)) rfl, ?_⟩
      simp [Node.respell, startOf, Rule.label]
  | throwValue ht _ ih =>
      obtain ⟨x, hx, ⟨⟩⟩ := ih
      refine ⟨_, reads_of_mem (.head _) (.seq (.mark ht) hx) rfl, ?_⟩
      simp [Node.respell, startOf, Rule.label]
  | compoundFunction _ ih =>
      obtain ⟨x, hx, ⟨⟩⟩ := ih
      exact ⟨x, reads_of_mem (.head _) hx rfl, rfl⟩
  | compoundIf _ ih =>
      obtain ⟨x, hx, ⟨⟩⟩ := ih
      exact ⟨x, reads_of_mem (.tail _ (.head _)) hx rfl, rfl⟩
  | functionDeclaration ht hn _ _ ihParams ihBody =>
      obtain ⟨x, hx, ⟨⟩⟩ := ihParams
      obtain ⟨y, hy, ⟨⟩⟩ := ihBody
      refine ⟨_, reads_of_mem (.head _)
        (.seq (.mark ht) (.seq (.terminal hn) (.seq hx hy))) rfl, ?_⟩
      simp [Node.respell, startOf, Rule.label, leaf_of_is hn]
  -- The three forms of a condition come from one alternative and differ in its optional end.
  | ifThen ht ho _ hc _ ihCondition ihYes =>
      obtain ⟨x, hx, ⟨⟩⟩ := ihCondition
      obtain ⟨y, hy, ⟨⟩⟩ := ihYes
      have alone := Derives.seq (.mark hc) (.seq hy (.optionalNone (a := Expansion.sequence
        [Expansion.word .elseWord, .either (.rule .block) (.rule .ifStatement)])))
      rw [List.append_nil] at alone
      refine ⟨_, reads_of_mem (.head _) (.seq (.mark ht) (.seq (.mark ho) (.seq hx alone))) rfl, ?_⟩
      simp [Node.respell, startOf, Rule.label]
  | ifElse ht ho _ hc _ hq _ ihCondition ihYes ihNo =>
      obtain ⟨x, hx, ⟨⟩⟩ := ihCondition
      obtain ⟨y, hy, ⟨⟩⟩ := ihYes
      obtain ⟨z, hz, ⟨⟩⟩ := ihNo
      refine ⟨_, reads_of_mem (.head _) (.seq (.mark ht) (.seq (.mark ho) (.seq hx
        (.seq (.mark hc) (.seq hy (.optionalSome (.seq (.mark hq) (.eitherFirst hz)))))))) rfl, ?_⟩
      simp [Node.respell, startOf, Rule.label]
  | ifElseIf ht ho _ hc _ hq _ ihCondition ihYes ihNo =>
      obtain ⟨x, hx, ⟨⟩⟩ := ihCondition
      obtain ⟨y, hy, ⟨⟩⟩ := ihYes
      obtain ⟨z, hz, ⟨⟩⟩ := ihNo
      refine ⟨_, reads_of_mem (.head _) (.seq (.mark ht) (.seq (.mark ho) (.seq hx
        (.seq (.mark hc) (.seq hy (.optionalSome (.seq (.mark hq) (.eitherSecond hz)))))))) rfl, ?_⟩
      simp [Node.respell, startOf, Rule.label]

/-! ## Both -/

/-- The trees of a rule, normalized, are those of the productions. -/
theorem reads_iff_produces {r : Rule} (hr : r ∉ [Rule.terminated, .singleParam, .key])
    {w : List Token} {n : Node} :
    (∃ m, Reads r w m ∧ n = m.normalize) ↔ Produces (.one r) w [n] := by
  constructor
  · rintro ⟨m, hm, rfl⟩
    obtain ⟨x, hx, hmx⟩ := (isPlain_of_ne hr _ _).1 (holds_of_derives hm)
    obtain rfl : m = x := by simpa using hmx
    exact hx
  · intro h
    obtain ⟨m, hm, hnm⟩ := means_of_produces h
    exact ⟨m, hm, (List.cons.inj hnm).1⟩

end VariantScript.Syntax.Grammar
