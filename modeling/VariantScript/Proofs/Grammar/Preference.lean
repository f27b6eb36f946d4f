import VariantScript.Proofs.Grammar.Correspondence
import VariantScript.Proofs.Grammar.Heads

/-!
# Trees that prefer blocks

Behind an arrow, a pair of braces that is empty or holds one name is a block and a record too.  Two
trees of the same tokens may differ there and nowhere else; a tree prefers blocks to another tree if
it has a block wherever they differ.
-/

namespace VariantScript.Syntax.Grammar

open Node (tree)

/-- Two lists of trees that agree but for arrow bodies, which may be related otherwise. -/
inductive AgreesBut (Bodies : Node → Node → Prop) : List Node → List Node → Prop where
  | nil : AgreesBut Bodies [] []
  | token {type text : String} {pos : Option Position} {ms ns : List Node}
      (others : AgreesBut Bodies ms ns) :
      AgreesBut Bodies (.token type text pos :: ms) (.token type text pos :: ns)
  | tree {label : String} {pos : Option Position} {xs ys ms ns : List Node}
      (children : AgreesBut Bodies xs ys) (others : AgreesBut Bodies ms ns) :
      AgreesBut Bodies (.tree label pos xs :: ms) (.tree label pos ys :: ns)
  | body {pos : Option Position} {p q a b : Node} {ms ns : List Node}
      (params : AgreesBut Bodies [p] [q]) (bodies : Bodies a b) (others : AgreesBut Bodies ms ns) :
      AgreesBut Bodies (.tree "arrow" pos [p, a] :: ms) (.tree "arrow" pos [q, b] :: ns)

/-- A block and a record that the same tokens are, in a place where both readings fit. -/
def BothWays (block record : Node) : Prop :=
  ∃ w m n, IsAmbiguous w ∧ Reads .block w m ∧ Reads .object w n ∧
    block = m.normalize ∧ record = n.normalize

/-- The first tree has blocks wherever the trees differ. -/
def Prefers (a b : Node) : Prop :=
  AgreesBut BothWays [a] [b]

/-- Trees that are the same but for arrow bodies that can be read both ways. -/
def Alike (a b : Node) : Prop :=
  AgreesBut (fun x y => BothWays x y ∨ BothWays y x) [a] [b]

namespace AgreesBut

variable {Bodies : Node → Node → Prop}

mutual

theorem refl_single (n : Node) : AgreesBut Bodies [n] [n] := by
  cases n with
  | tree label pos children => exact .tree (refl children) .nil
  | token type text pos => exact .token .nil

theorem refl (ns : List Node) : AgreesBut Bodies ns ns := by
  cases ns with
  | nil => exact .nil
  | cons n ns =>
      cases n with
      | tree label pos children => exact .tree (refl children) (refl ns)
      | token type text pos => exact .token (refl ns)

end

theorem append {ms ns ms' ns' : List Node} (h : AgreesBut Bodies ms ns)
    (h' : AgreesBut Bodies ms' ns') : AgreesBut Bodies (ms ++ ms') (ns ++ ns') := by
  induction h with
  | nil => exact h'
  | token _ ih => exact .token ih
  | tree children _ _ ih => exact .tree children ih
  | body params bodies _ _ ih => exact .body params bodies ih

theorem cons {m n : Node} {ms ns : List Node} (h : AgreesBut Bodies [m] [n])
    (h' : AgreesBut Bodies ms ns) : AgreesBut Bodies (m :: ms) (n :: ns) :=
  h.append h'

theorem pair {a b a' b' : Node} (h : AgreesBut Bodies [a] [b]) (h' : AgreesBut Bodies [a'] [b']) :
    AgreesBut Bodies [a, a'] [b, b'] :=
  h.append h'

theorem triple {a b a' b' a'' b'' : Node} (h : AgreesBut Bodies [a] [b])
    (h' : AgreesBut Bodies [a'] [b']) (h'' : AgreesBut Bodies [a''] [b'']) :
    AgreesBut Bodies [a, a', a''] [b, b', b''] :=
  h.append (h'.append h'')

/-- Trees under the same label agree as their children do. -/
theorem under {label : String} {pos : Option Position} {xs ys : List Node}
    (h : AgreesBut Bodies xs ys) : AgreesBut Bodies [.tree label pos xs] [.tree label pos ys] :=
  .tree h .nil

theorem cons_inv {m : Node} {ms ns : List Node} (h : AgreesBut Bodies (m :: ms) ns) :
    ∃ n ns', ns = n :: ns' ∧ AgreesBut Bodies [m] [n] ∧ AgreesBut Bodies ms ns' := by
  cases h with
  | token others => exact ⟨_, _, rfl, .token .nil, others⟩
  | tree children others => exact ⟨_, _, rfl, .tree children .nil, others⟩
  | body params bodies others => exact ⟨_, _, rfl, .body params bodies .nil, others⟩

theorem nil_inv {ns : List Node} (h : AgreesBut Bodies [] ns) : ns = [] := by
  cases h
  rfl

theorem pair_inv {a b : Node} {ns : List Node} (h : AgreesBut Bodies [a, b] ns) :
    ∃ a' b', ns = [a', b'] ∧ AgreesBut Bodies [a] [a'] ∧ AgreesBut Bodies [b] [b'] := by
  obtain ⟨a', ns', rfl, ha, hns'⟩ := h.cons_inv
  obtain ⟨b', ns'', rfl, hb, hns''⟩ := hns'.cons_inv
  obtain rfl := hns''.nil_inv
  exact ⟨a', b', rfl, ha, hb⟩

theorem tree_inv {label : String} {pos : Option Position} {xs ns : List Node}
    (h : AgreesBut Bodies [.tree label pos xs] ns) (hlabel : label ≠ "arrow") :
    ∃ ys, ns = [.tree label pos ys] ∧ AgreesBut Bodies xs ys := by
  cases h with
  | tree children others =>
      obtain rfl := others.nil_inv
      exact ⟨_, rfl, children⟩
  | body => exact absurd rfl hlabel

theorem leaf_inv {t : Token} {ns : List Node} (h : AgreesBut Bodies [t.leaf] ns) :
    ns = [t.leaf] := by
  unfold Token.leaf Node.leaf at h ⊢
  cases h with
  | token others =>
      obtain rfl := others.nil_inv
      rfl

end AgreesBut

/-! ## Braces that can be read both ways -/

/-- One name is a primary in one way only. -/
theorem primary_name {t : Token} {w : List Token} {x : Node} (ht : t.kind = .name) (hw : w = [t])
    (h : Produces (.one .primary) w [x]) : x = referenceTree t := by
  cases h with
  | reference =>
      obtain rfl := List.cons.inj hw |>.1
      rfl
  | number h | string h | trueWord h | falseWord h =>
      obtain rfl := List.cons.inj hw |>.1
      simp [h.1] at ht
  | primaryArray h =>
      cases h with
      | array => simp at hw
  | primaryObject h =>
      cases h with
      | object => simp at hw
  | functionExpression h =>
      obtain rfl := List.cons.inj hw |>.1
      simp [h.1] at ht
  | parenthesized => simp at hw

/-- One name is an expression in one way only. -/
theorem expression_name {t : Token} {w : List Token} {x : Node} (ht : t.kind = .name)
    (hw : w = [t]) (h : Produces (.one .expression) w [x]) : x = referenceTree t := by
  cases h with
  | expressionArrow h =>
      cases h with
      | arrowName => simp at hw
      | arrowParams ps =>
          cases ps with
          | params => simp at hw
  | expressionConditional h =>
      -- One token has no room for anything but a primary.
      rcases operand_of_produces h trivial with ⟨op, v, rfl, hop⟩ | ⟨u, more, m, rfl, hm, hx, -⟩
      · obtain ⟨rfl, -⟩ := List.cons.inj hw
        rcases hop with hop | hop <;> simp [hop.1] at ht
      · obtain ⟨b, u, rfl⟩ := List.exists_cons_of_ne_nil (nonempty_of_produces hm trivial)
        obtain ⟨rfl, rfl, rfl⟩ : b = t ∧ u = [] ∧ more = [] := by simpa using hw
        obtain rfl : x = m := by simpa using hx rfl
        exact primary_name ht rfl hm

theorem statements_nil {w : List Token} {ns : List Node} (hw : w = [])
    (h : Produces .statements w ns) : ns = [] := by
  cases h with
  | statementsNil => rfl
  | statementsLast h => exact absurd hw (nonempty_of_produces h trivial)
  | statementsSemicolon => simp at hw
  | statementsSimple => simp at hw
  | statementsCompound h =>
      exact absurd (List.append_eq_nil_iff.1 hw).1 (nonempty_of_produces h trivial)

/-- One name is a sequence of statements in one way only. -/
theorem statements_name {t : Token} {w : List Token} {ns : List Node} (ht : t.kind = .name)
    (hw : w = [t]) (h : Produces .statements w ns) :
    ns = [tree "expr_stmt" (some t.pos) [referenceTree t]] := by
  cases h with
  | statementsNil => simp at hw
  | statementsLast h =>
      cases h with
      | expressionStatement h =>
          rw [expression_name ht hw h, hw]
          rfl
      | simpleDeclaration h =>
          cases h with
          | declaration => simp at hw
      | simpleReturn h =>
          cases h with
          | returnNothing h | returnValue h =>
              obtain rfl := List.cons.inj hw |>.1
              simp [h.1] at ht
      | simpleThrow h =>
          cases h with
          | throwValue h =>
              obtain rfl := List.cons.inj hw |>.1
              simp [h.1] at ht
  | statementsSemicolon hs =>
      obtain rfl := List.cons.inj hw |>.1
      simp [hs.1] at ht
  | statementsSimple h =>
      obtain ⟨b, u, rfl⟩ := List.exists_cons_of_ne_nil (nonempty_of_produces h trivial)
      simp at hw
  | statementsCompound h =>
      cases h with
      | compoundFunction h =>
          cases h with
          | functionDeclaration => simp at hw
      | compoundIf h =>
          cases h with
          | ifThen | ifElse | ifElseIf => simp at hw

theorem fields_nil {w : List Token} {ns : List Node} (hw : w = [])
    (h : Produces (.list .field) w ns) : ns = [] := by
  cases h with
  | listNil => rfl
  | listLast item => exact absurd hw (nonempty_of_produces item trivial)
  | listMore => simp at hw

/-- One name is a list of fields in one way only. -/
theorem fields_name {t : Token} {w : List Token} {ns : List Node} (hw : w = [t])
    (h : Produces (.list .field) w ns) :
    ns = [tree "field" (some t.pos) [shorthandKeyTree t, referenceTree t]] := by
  cases h with
  | listNil => simp at hw
  | listLast item =>
      cases item with
      | field => simp at hw
      | fieldShorthand =>
          obtain rfl := List.cons.inj hw |>.1
          rfl
  | listMore item =>
      obtain ⟨b, u, rfl⟩ := List.exists_cons_of_ne_nil (nonempty_of_produces item trivial)
      simp at hw

/-- The tokens between braces that can be read both ways. -/
theorem IsAmbiguous.between {o c : Token} {v : List Token} (h : IsAmbiguous (o :: (v ++ [c]))) :
    v = [] ∨ ∃ t, v = [t] ∧ t.kind = .name := by
  unfold IsAmbiguous at h
  match v with
  | [] => exact Or.inl rfl
  | [t] => exact Or.inr ⟨t, rfl, by simpa using And.left (And.right (by simpa using h))⟩
  | t :: u :: v => simp at h

/-- The trees that braces have where both readings fit. -/
theorem bothWays_shape {a b : Node} (h : BothWays a b) :
    (∃ o : Token, a = tree "block" (some o.pos) [] ∧ b = tree "object" (some o.pos) []) ∨
      ∃ o t : Token,
        a = tree "block" (some o.pos) [tree "expr_stmt" (some t.pos) [referenceTree t]] ∧
        b = tree "object" (some o.pos)
          [tree "field" (some t.pos) [shorthandKeyTree t, referenceTree t]] := by
  obtain ⟨w, m, n, hw, hm, hn, ha, hb⟩ := h
  have hblock := (reads_iff_produces (by decide)).1 ⟨m, hm, ha⟩
  have hrecord := (reads_iff_produces (by decide)).1 ⟨n, hn, hb⟩
  cases hblock with
  | @block o c v ns ho body hc =>
      generalize hv : o :: (v ++ [c]) = w at hrecord
      cases hrecord with
      | @object o' c' v' ns' ho' items hc' =>
          obtain ⟨rfl, hinside⟩ := List.cons.inj hv
          obtain ⟨rfl, -⟩ := List.append_inj' hinside rfl
          -- The braces agree, so what differs stands between them, and that is one name at most.
          rcases hw.between with rfl | ⟨t, rfl, ht⟩
          · left
            rw [statements_nil rfl body, fields_nil rfl items]
            exact ⟨o, rfl, rfl⟩
          · right
            rw [statements_name ht rfl body, fields_name rfl items]
            exact ⟨o, t, rfl, rfl⟩

/-- Tokens that can be read both ways are one block only and one record only. -/
theorem BothWays.record_eq {a b b' : Node} (h : BothWays a b) (h' : BothWays a b') : b = b' := by
  rcases bothWays_shape h with ⟨o, rfl, rfl⟩ | ⟨o, t, rfl, rfl⟩
  · rcases bothWays_shape h' with ⟨o', ha, rfl⟩ | ⟨o', t', ha, rfl⟩
    · simp_all
    · simp at ha
  · rcases bothWays_shape h' with ⟨o', ha, rfl⟩ | ⟨o', t', ha, rfl⟩
    · simp at ha
    · simp_all [referenceTree, shorthandKeyTree]

/-- A block that can be a record too has no arrows in it, so whatever agrees with it is it. -/
theorem BothWays.block_fixed {Bodies : Node → Node → Prop} {a b c : Node} (h : BothWays a b)
    (hc : AgreesBut Bodies [a] [c]) : c = a := by
  rcases bothWays_shape h with ⟨o, rfl, rfl⟩ | ⟨o, t, rfl, rfl⟩
  · obtain ⟨_, hc, hnil⟩ := hc.tree_inv (by decide)
    obtain rfl := hnil.nil_inv
    exact (List.cons.inj hc).1
  · obtain ⟨_, hc, hstatements⟩ := hc.tree_inv (by decide)
    obtain ⟨_, rfl, hreferences⟩ := hstatements.tree_inv (by decide)
    obtain ⟨_, rfl, hleaves⟩ := hreferences.tree_inv (by decide)
    obtain rfl := hleaves.leaf_inv
    exact (List.cons.inj hc).1

/-- Trees that one tree prefers blocks to are alike. -/
theorem alike_all_of_prefers {ps as : List Node} (ha : AgreesBut BothWays ps as) :
    ∀ bs, AgreesBut BothWays ps bs →
      AgreesBut (fun x y => BothWays x y ∨ BothWays y x) as bs := by
  -- The preferring tree leads the way: at each arrow body it has a block against either of the
  -- others, against one of them, or against none.
  induction ha with
  | nil =>
      intro bs hb
      obtain rfl := hb.nil_inv
      exact .nil
  | token _ ih =>
      intro bs hb
      cases hb with
      | token others => exact .token (ih _ others)
  | tree children _ ihChildren ihOthers =>
      intro bs hb
      cases hb with
      | tree children' others' => exact .tree (ihChildren _ children') (ihOthers _ others')
      | body params bodies others' =>
          obtain ⟨p', a', rfl, hp, hblock⟩ := children.pair_inv
          obtain rfl := bodies.block_fixed hblock
          obtain ⟨q', _, hq, hparams, -⟩ := (ihChildren _ (params.pair (.refl_single _))).pair_inv
          obtain ⟨rfl, -⟩ := List.cons.inj hq
          exact .body hparams (Or.inl bodies) (ihOthers _ others')
  | body params bodies _ ihParams ihOthers =>
      intro bs hb
      cases hb with
      | tree children' others' =>
          obtain ⟨p', a', rfl, hp, hblock⟩ := children'.pair_inv
          obtain rfl := bodies.block_fixed hblock
          exact .body (ihParams _ hp) (Or.inr bodies) (ihOthers _ others')
      | body params' bodies' others' =>
          -- Both of the others have the record here, and there is only one.
          obtain rfl := bodies.record_eq bodies'
          exact .tree ((ihParams _ params').pair (.refl_single _)) (ihOthers _ others')

/-- Trees that one tree prefers blocks to are alike. -/
theorem alike_of_prefers {p a b : Node} (ha : Prefers p a) (hb : Prefers p b) : Alike a b :=
  alike_all_of_prefers ha _ hb

end VariantScript.Syntax.Grammar
