import VariantScript.Proofs.Faults.Positions
import VariantScript.Proofs.Grammar.OwnText
import VariantScript.Proofs.Lexing.Order

/-!
# Where trees stand

What the tree of a program tells about places in the text.  A tree stands where its own text starts:
tokens that the tree is read from, without parentheses around them.  So no tree stands behind what is
in it, and the tokens that are kept in the tree stand one behind the other; only the name of a
shorthand is kept twice.
-/

namespace VariantScript.Syntax

variable {u v w : List Token} {x y : Node} {xs ys ns : List Node} {t : Token} {p q : Position}

/-! ## Places of tokens -/

theorem isPlaceOf_startOf (h : startOf w = some p) : IsPlaceOf w p := by
  cases w with
  | nil => cases h
  | cons t w => exact ⟨t, .head _, Option.some.inj h⟩

theorem IsPlaceOf.append_left (h : IsPlaceOf u p) : IsPlaceOf (u ++ v) p :=
  h.imp fun _ ht => ⟨List.mem_append_left v ht.1, ht.2⟩

theorem IsPlaceOf.append_right (h : IsPlaceOf v p) : IsPlaceOf (u ++ v) p :=
  h.imp fun _ ht => ⟨List.mem_append_right u ht.1, ht.2⟩

/-- Tokens that stand one behind the other. -/
def InOrder (w : List Token) : Prop :=
  w.Pairwise fun s t => s.pos < t.pos

/-- The first of some tokens stands behind none of them. -/
theorem InOrder.start_le (hw : InOrder w) (h : startOf w = some p) (hq : IsPlaceOf w q) : p ≤ q := by
  obtain ⟨s, hs, rfl⟩ := hq
  cases w with
  | nil => cases hs
  | cons t w =>
      cases h
      rcases List.mem_cons.1 hs with rfl | hs
      · exact Position.le_refl _
      · exact Position.le_of_lt ((List.pairwise_cons.1 hw).1 s hs)

/-- Tokens in front of others stand at other places. -/
theorem InOrder.lt (hw : InOrder (u ++ v)) (hp : IsPlaceOf u p) (hq : IsPlaceOf v q) : p < q := by
  obtain ⟨s, hs, rfl⟩ := hp
  obtain ⟨t, ht, rfl⟩ := hq
  exact (List.pairwise_append.1 hw).2.2 s hs t ht

theorem InOrder.of_infix (hw : InOrder w) (h : u <:+: w) : InOrder u :=
  List.Pairwise.sublist h.sublist hw

namespace Grammar

open Node (tree)

/-! ## Shorthands -/

theorem isIn_leaf (t : Token) : x.IsIn t.leaf ↔ x = t.leaf :=
  Node.isIn_token

/-- What is in the tree of a shorthand. -/
theorem IsShorthand.parts (hx : IsShorthand t x) (hy : y.IsIn x) :
    y = x ∨ y = shorthandKeyTree t ∨ y = referenceTree t ∨ y = bindTree t ∨ y = t.leaf := by
  cases hx <;>
  · simp only [Node.isIn_tree, Node.isAmong_cons, Node.not_isAmong_nil, shorthandKeyTree,
      referenceTree, bindTree, isIn_leaf, or_false] at hy ⊢
    tauto

theorem IsShorthand.pos (hx : IsShorthand t x) : x.pos = some t.pos := by
  cases hx <;> rfl

theorem IsShorthand.leaves (hx : IsShorthand t x) : x.leaves = [t.leaf, t.leaf] := by
  cases hx <;> simp [shorthandKeyTree, referenceTree, bindTree, Token.leaf, Node.leaf]

theorem IsShorthand.isName (hx : IsShorthand t x) : t.Is .name := by
  cases hx with
  | field ht => exact ht
  | patternField ht => exact ht

theorem IsShorthand.isReadFrom (hx : IsShorthand t x) : IsReadFrom x [t] := by
  cases hx with
  | field ht => exact .part (.fieldShorthand ht)
  | patternField ht => exact .part (.patternShorthand ht)

/-! ## What lies in tokens -/

namespace Laid

/-- What lies in some tokens stands at places of theirs. -/
theorem place (h : Laid w ns) (hx : x.IsAmong ns) (hp : x.pos = some p) : IsPlaceOf w p := by
  induction h with
  | dropped => simp at hx
  | kept t =>
      rw [Node.isAmong_singleton, isIn_leaf] at hx
      subst hx
      exact ⟨t, .head _, Option.some.inj hp⟩
  | tree _ _ _ ih =>
      rw [Node.isAmong_singleton, Node.isIn_tree] at hx
      rcases hx with rfl | hx
      · exact isPlaceOf_startOf hp
      · exact ih hx
  | @shorthand t y hy =>
      refine ⟨t, .head _, ?_⟩
      rcases hy.parts (Node.isAmong_singleton.1 hx) with rfl | rfl | rfl | rfl | rfl
      · exact Option.some.inj (hy.pos.symm.trans hp)
      · cases hp
      all_goals exact Option.some.inj hp
  | beside _ _ ih ih' =>
      rw [Node.isAmong_append] at hx
      rcases hx with hx | hx
      · exact (ih hx).append_left
      · exact (ih' hx).append_right

/-- Every tree that lies in some tokens has one of the labels of trees in programs. -/
theorem label (h : Laid w ns) {label : String} {pos : Option Position} {children : List Node}
    (hx : (Node.tree label pos children).IsAmong ns) : label ∈ innerLabels := by
  generalize htree : Node.tree label pos children = x at hx
  induction h with
  | dropped => simp at hx
  | kept t =>
      rw [Node.isAmong_singleton, isIn_leaf] at hx
      subst hx
      cases htree
  | tree hlabel _ _ ih =>
      rw [Node.isAmong_singleton, Node.isIn_tree] at hx
      rcases hx with rfl | hx
      · cases htree
        exact hlabel
      · exact ih hx
  | shorthand hy =>
      rcases hy.parts (Node.isAmong_singleton.1 hx) with rfl | rfl | rfl | rfl | rfl
      · cases hy <;> (cases htree; decide)
      · cases htree; decide
      · cases htree; decide
      · cases htree; decide
      · cases htree
  | beside _ _ ih ih' =>
      rw [Node.isAmong_append] at hx
      exact hx.elim ih ih'

/-- Every tree that lies in some tokens is the key of a shorthand, or it is read from tokens among
them, lies in these and stands where they start. -/
theorem isReadFrom (h : Laid w ns) {label : String} {pos : Option Position} {children : List Node}
    (hx : (Node.tree label pos children).IsAmong ns) :
    (∃ name y, IsShorthand name y ∧ y.IsAmong ns ∧
      Node.tree label pos children = shorthandKeyTree name) ∨
    ∃ own, own <:+: w ∧ IsReadFrom (.tree label pos children) own ∧ pos = startOf own ∧
      Laid own [.tree label pos children] := by
  generalize htree : Node.tree label pos children = x at hx ⊢
  have hpos : x.pos = pos := by
    rw [← htree]
    rfl
  rw [← hpos]
  induction h with
  | dropped => simp at hx
  | kept t =>
      rw [Node.isAmong_singleton, isIn_leaf] at hx
      subst hx
      cases htree
  | @tree label' w ns hlabel hread hns ih =>
      rw [Node.isAmong_singleton, Node.isIn_tree] at hx
      rcases hx with rfl | hx
      · exact .inr ⟨w, List.infix_rfl, hread, rfl, .tree hlabel hread hns⟩
      · refine (ih hx).imp_left ?_
        rintro ⟨name, y, hy, hyns, hkey⟩
        exact ⟨name, y, hy, Node.isAmong_singleton.2 (Node.isIn_tree.2 (.inr hyns)), hkey⟩
  | @shorthand t y hy =>
      have ht := hy.isName
      rcases hy.parts (Node.isAmong_singleton.1 hx) with rfl | rfl | rfl | rfl | rfl
      · exact .inr ⟨[t], List.infix_rfl, hy.isReadFrom, hy.pos, .shorthand hy⟩
      · exact .inl ⟨t, y, hy, Node.isAmong_singleton.2 .self, rfl⟩
      · exact .inr ⟨[t], List.infix_rfl, .part (.reference ht), rfl, .reference ht⟩
      · exact .inr ⟨[t], List.infix_rfl, .part (.patternName ht), rfl, .bind ht⟩
      · cases htree
  | @beside u v xs ys _ _ ih ih' =>
      rw [Node.isAmong_append] at hx
      rcases hx with hx | hx
      · refine (ih hx).imp ?_ ?_
        · rintro ⟨name, y, hy, hyns, hkey⟩
          exact ⟨name, y, hy, Node.isAmong_append.2 (.inl hyns), hkey⟩
        · rintro ⟨own, hinfix, hown⟩
          exact ⟨own, hinfix.trans (List.prefix_append u v).isInfix, hown⟩
      · refine (ih' hx).imp ?_ ?_
        · rintro ⟨name, y, hy, hyns, hkey⟩
          exact ⟨name, y, hy, Node.isAmong_append.2 (.inr hyns), hkey⟩
        · rintro ⟨own, hinfix, hown⟩
          exact ⟨own, hinfix.trans (List.suffix_append u v).isInfix, hown⟩

/-- The tokens that are kept in the trees are among the tokens that these lie in. -/
theorem leaf_mem (h : Laid w ns) {l : Node} (hl : l ∈ Node.leavesAll ns) : ∃ t ∈ w, l = t.leaf := by
  induction h with
  | dropped => simp at hl
  | kept t => exact ⟨t, .head _, by simpa [Token.leaf, Node.leaf] using hl⟩
  | tree _ _ _ ih => exact ih (by simpa using hl)
  | @shorthand t x hx => exact ⟨t, .head _, by simpa [hx.leaves] using hl⟩
  | beside _ _ ih ih' =>
      rw [Node.leavesAll_append, List.mem_append] at hl
      rcases hl with hl | hl
      · obtain ⟨t, ht, rfl⟩ := ih hl
        exact ⟨t, List.mem_append_left _ ht, rfl⟩
      · obtain ⟨t, ht, rfl⟩ := ih' hl
        exact ⟨t, List.mem_append_right _ ht, rfl⟩

/-- They stand one behind the other or at one place. -/
theorem leaves_inOrder (h : Laid w ns) (hw : InOrder w) :
    (Node.leavesAll ns).Pairwise fun l m => ∀ p q, l.pos = some p → m.pos = some q → p ≤ q := by
  induction h with
  | dropped => simp
  | kept t => simp [Token.leaf, Node.leaf]
  | tree _ _ _ ih => simpa using ih hw
  | @shorthand t x hx =>
      simp only [Node.leavesAll_cons, Node.leavesAll_nil, hx.leaves, List.append_nil,
        List.pairwise_cons, List.mem_singleton, forall_eq]
      refine ⟨?_, by simp⟩
      rintro p q ⟨⟩ ⟨⟩
      exact Position.le_refl _
  | @beside u v xs ys h h' ih ih' =>
      rw [Node.leavesAll_append, List.pairwise_append]
      obtain ⟨hu, hv, -⟩ := List.pairwise_append.1 hw
      refine ⟨ih hu, ih' hv, fun l hl m hm p q hp hq => ?_⟩
      obtain ⟨s, hs, rfl⟩ := h.leaf_mem hl
      obtain ⟨t, ht, rfl⟩ := h'.leaf_mem hm
      cases hp
      cases hq
      exact Position.le_of_lt (hw.lt ⟨s, hs, rfl⟩ ⟨t, ht, rfl⟩)

/-- No token is kept at a place where none of the tokens stands. -/
theorem leavesAt_eq_nil (h : Laid w ns) (hp : ¬ IsPlaceOf w p) :
    ((Node.leavesAll ns).filter fun l => l.pos = some p) = [] := by
  rw [List.filter_eq_nil_iff]
  intro l hl hpos
  obtain ⟨t, ht, rfl⟩ := h.leaf_mem hl
  exact hp ⟨t, ht, Option.some.inj (of_decide_eq_true hpos)⟩

/-- At each place at most one token is kept, unless it is the name of a shorthand, which is kept
twice. -/
theorem leavesAt (h : Laid w ns) (hw : InOrder w) (p : Position) :
    ((Node.leavesAll ns).filter fun l => l.pos = some p).length ≤ 1 ∨
      ∃ name y, IsShorthand name y ∧ y.IsAmong ns ∧
        ((Node.leavesAll ns).filter fun l => l.pos = some p) = [name.leaf, name.leaf] := by
  induction h with
  | dropped => simp
  | kept t =>
      refine .inl ((List.length_filter_le _ _).trans ?_)
      simp [Token.leaf, Node.leaf]
  | tree _ _ _ ih =>
      simp only [Node.leavesAll_cons, Node.leaves_tree, Node.leavesAll_nil, List.append_nil]
      refine (ih hw).imp_right ?_
      rintro ⟨name, y, hy, hyns, hleaves⟩
      exact ⟨name, y, hy, Node.isAmong_singleton.2 (Node.isIn_tree.2 (.inr hyns)), hleaves⟩
  | @shorthand t x hx =>
      simp only [Node.leavesAll_cons, Node.leavesAll_nil, hx.leaves, List.append_nil]
      by_cases hp : t.pos = p
      · refine .inr ⟨t, x, hx, Node.isAmong_singleton.2 .self, ?_⟩
        rw [List.filter_eq_self]
        simp [Token.leaf, Node.leaf, Node.pos, Token.spelled, hp]
      · refine .inl ?_
        rw [List.filter_eq_nil_iff.2]
        · exact Nat.zero_le 1
        · simp [Token.leaf, Node.leaf, Node.pos, Token.spelled, hp]
  | @beside u v xs ys h h' ih ih' =>
      rw [Node.leavesAll_append, List.filter_append]
      obtain ⟨hu, hv, -⟩ := List.pairwise_append.1 hw
      by_cases hp : IsPlaceOf u p
      · have hnone : ¬ IsPlaceOf v p := fun hp' => Position.ne_of_lt (hw.lt hp hp') rfl
        rw [h'.leavesAt_eq_nil hnone, List.append_nil]
        refine (ih hu).imp_right ?_
        rintro ⟨name, y, hy, hyns, hleaves⟩
        exact ⟨name, y, hy, Node.isAmong_append.2 (.inl hyns), hleaves⟩
      · rw [h.leavesAt_eq_nil hp, List.nil_append]
        refine (ih' hv).imp_right ?_
        rintro ⟨name, y, hy, hyns, hleaves⟩
        exact ⟨name, y, hy, Node.isAmong_append.2 (.inr hyns), hleaves⟩

end Laid

/-! ## Own texts -/

theorem isStart_of_not_isInner {r : Rule} (h : ¬ (Part.one r).IsInner) : r = .start := by
  cases r with
  | start => rfl
  | _ => exact absurd trivial h

/-- A tree in a program is read from one token at least. -/
theorem IsReadFrom.nonempty {label : String} {pos : Option Position} {children : List Node}
    (h : IsReadFrom (tree label pos children) w) (hlabel : label ∈ innerLabels) : w ≠ [] := by
  generalize htree : tree label pos children = x at h
  cases h with
  | @part r w x hread =>
      by_cases hr : (Part.one r).IsInner
      · exact nonempty_of_produces hread (by cases r <;> exact hr)
      · cases isStart_of_not_isInner hr
        cases hread
        cases htree
        exact absurd hlabel (by decide)
  | key => simp
  | parameter => simp

/-- A tree that is read from tokens stands at the place of one of them. -/
theorem IsReadFrom.place (h : IsReadFrom x w) (hp : x.pos = some p) : IsPlaceOf w p := by
  cases h with
  | @part r w x hread =>
      by_cases hr : (Part.one r).IsInner
      · exact (laid_of_produces hread hr).place (Node.isAmong_singleton.2 .self) hp
      · cases isStart_of_not_isInner hr
        cases hread
        exact isPlaceOf_startOf hp
  | @key k hk => exact ⟨k, .head _, Option.some.inj hp⟩
  | @parameter t ht => exact ⟨t, .head _, Option.some.inj hp⟩

/-- Tokens that stand one behind the other are the own text of a tree that is read from them and
stands where they start. -/
theorem IsReadFrom.ownText (h : IsReadFrom x w) (hpos : x.pos = startOf w) (hw : InOrder w) :
    OwnText x w := by
  refine ⟨h, ?_⟩
  rintro o inner c rfl - - hinner
  obtain ⟨s, hs, hplace⟩ := hinner.place hpos
  have hlt := (List.pairwise_cons.1 hw).1 s (List.mem_append_left _ hs)
  exact Position.ne_of_lt hlt hplace.symm

/-! ## Programs -/

/-- How the tree of a program stands in the tokens of its text. -/
structure StandsIn (root : Node) (tokens : List Token) : Prop where
  /-- Every tree stands at the first token of its own text, but for a program without tokens and the
  keys of shorthands, which have no place. -/
  trees (label : String) (pos : Option Position) (children : List Node)
    (h : (tree label pos children).IsIn root) :
    pos = none ∧ tokens = [] ∧ tree label pos children = root ∨
      pos = none ∧ (∃ name x, IsShorthand name x ∧ x.IsIn root ∧
        tree label pos children = shorthandKeyTree name) ∨
      ∃ first rest, first :: rest <:+: tokens ∧
        OwnText (tree label pos children) (first :: rest) ∧ pos = some first.pos
  /-- The own text of a tree starts where the tree stands, whatever tokens it is read from. -/
  own (x : Node) (w : List Token) (hx : x.IsIn root) (h : OwnText x w) : x.pos = startOf w
  /-- No tree stands behind a tree or a token that is in it. -/
  parts (x y : Node) (p q : Position) (hx : x.IsIn root) (hy : y.IsIn x) (hp : x.pos = some p)
    (hq : y.pos = some q) : p ≤ q
  /-- What is kept are tokens of the text. -/
  kept (l : Node) (hl : l ∈ root.leaves) : ∃ t ∈ tokens, l = t.leaf
  /-- From left to right, no token stands in front of one before it. -/
  inOrder : root.leaves.Pairwise fun l m => ∀ p q, l.pos = some p → m.pos = some q → p ≤ q
  /-- Only the name of a shorthand stands twice at its place. -/
  once (p : Position) : (root.leaves.filter fun l => l.pos = some p).length ≤ 1 ∨
    ∃ name x, IsShorthand name x ∧ x.IsIn root ∧
      (root.leaves.filter fun l => l.pos = some p) = [name.leaf, name.leaf]

theorem standsIn_of_produces {root : Node} {tokens : List Token} (hw : InOrder tokens)
    (h : Produces (.one .start) tokens [root]) : StandsIn root tokens := by
  have hroot : IsReadFrom root tokens := .part h
  cases h with
  | @start _ ns hstatements =>
      have hlaid := laid_of_produces hstatements trivial
      have hbelow {x : Node} (hx : x.IsAmong ns) :
          x.IsIn (tree "program" (startOf tokens) ns) := Node.isIn_tree.2 (.inr hx)
      refine ⟨fun label pos children hx => ?_, fun x w hx hown => hown.pos,
        fun x y p q hx hy hp hq => ?_, fun l hl => hlaid.leaf_mem (by simpa using hl), ?_,
        fun p => ?_⟩
      · rcases Node.isIn_tree.1 hx with heq | hx
        · cases heq
          cases tokens with
          | nil => exact .inl ⟨rfl, rfl, rfl⟩
          | cons first rest =>
              exact .inr (.inr ⟨first, rest, List.infix_rfl, hroot.ownText rfl hw, rfl⟩)
        · rcases hlaid.isReadFrom hx with ⟨name, y, hy, hyns, hkey⟩ |
            ⟨own, hinfix, hread, hpos, hself⟩
          · cases hkey
            exact .inr (.inl ⟨rfl, name, y, hy, hbelow hyns, rfl⟩)
          · obtain ⟨first, rest, rfl⟩ :=
              List.exists_cons_of_ne_nil (hread.nonempty (hlaid.label hx))
            exact .inr (.inr ⟨first, rest, hinfix, hread.ownText hpos (hw.of_infix hinfix), hpos⟩)
      · rcases Node.isIn_tree.1 hx with rfl | hx
        · -- The root starts with the text, and all places in it are places of its tokens.
          refine hw.start_le hp ?_
          rcases Node.isIn_tree.1 hy with rfl | hy
          · exact isPlaceOf_startOf hq
          · exact hlaid.place hy hq
        · cases x with
          | token type text pos =>
              rw [Node.isIn_token] at hy
              subst hy
              cases hp.symm.trans hq
              exact Position.le_refl p
          | tree label pos children =>
              rcases hlaid.isReadFrom hx with ⟨name, -, -, -, hkey⟩ | ⟨own, hinfix, -, hpos, hself⟩
              · cases hkey
                cases hp
              · exact (hw.of_infix hinfix).start_le (hpos.symm.trans hp)
                  (hself.place (Node.isAmong_singleton.2 hy) hq)
      · simpa using hlaid.leaves_inOrder hw
      · have honce := hlaid.leavesAt hw p
        rw [Node.leaves_tree]
        refine honce.imp_right ?_
        rintro ⟨name, y, hy, hyns, hleaves⟩
        exact ⟨name, y, hy, hbelow hyns, hleaves⟩

end Grammar

/-- The tree of every program stands in the tokens of its text. -/
theorem Program.standsIn_of_read {source : List Char} {t : Term}
    (h : Program.read source = .ok t) : Grammar.StandsIn t.toNode (tokensOf source).1 := by
  obtain ⟨-, hprogram⟩ := Program.tokens_of_read h
  exact Grammar.standsIn_of_produces (tokensOf_inOrder source)
    (Phrase.produces_of_program (genuine_tokensOf source) hprogram)

/-- Parentheses at the head of a call, in which the name of a shorthand is kept twice. -/
theorem Program.standsIn_of_read_shorthand :
    ∃ t, Program.read "(f)({ a }).b".toList = .ok t ∧
      Grammar.StandsIn t.toNode (tokensOf "(f)({ a }).b".toList).1 := by
  have hreads : (Program.read "(f)({ a }).b".toList).isOk := by decide +kernel
  cases hread : Program.read "(f)({ a }).b".toList with
  | error e =>
      rw [hread] at hreads
      cases hreads
  | ok t => exact ⟨t, rfl, Program.standsIn_of_read hread⟩

end VariantScript.Syntax
