import VariantScript.Proofs.Grammar.Decision
import VariantScript.Proofs.Places.Trees

/-!
# Braces behind arrows

The reader takes braces behind an arrow for a block wherever they can be one, so its tree is that of a
derivation that decides, and there is only one such tree.  Two trees of the same tokens that differ
in a body have braces there that start at the same token.  They close at the same token, too, and
have the mark of the arrow in front of them.
-/

namespace VariantScript.Syntax

/-- Tokens that stand one behind the other are parted in one way only at a place. -/
theorem InOrder.parted {s s' u v : List Token} {a b : Token} (hw : InOrder (s ++ a :: u))
    (heq : s ++ a :: u = s' ++ b :: v) (hpos : a.pos = b.pos) : s = s' ∧ a = b ∧ u = v := by
  rcases List.append_eq_append_iff.1 heq with ⟨r, rfl, hr⟩ | ⟨r, rfl, hr⟩
  · cases r with
    | nil => simpa using hr
    | cons c r =>
        -- The one token would stand behind the other one.
        obtain ⟨rfl, rfl⟩ := List.cons.inj hr
        have hbehind := (List.pairwise_append.1 hw).2.1
        have hlt := (List.pairwise_cons.1 hbehind).1 b (by simp)
        exact absurd hpos (Position.ne_of_lt hlt)
  · cases r with
    | nil => simpa [eq_comm] using hr
    | cons c r =>
        obtain ⟨rfl, rfl⟩ := List.cons.inj hr
        have hlt := (List.pairwise_append.1 hw).2.2 b (by simp) a (by simp)
        exact absurd hpos.symm (Position.ne_of_lt hlt)

/-- A token in front of another one is the only one that stands in front of its place. -/
theorem InOrder.before_eq {w u v : List Token} {a b o o' : Token} (hw : InOrder w)
    (hu : a :: o :: u <:+: w) (hv : b :: o' :: v <:+: w) (hpos : o.pos = o'.pos) :
    a = b ∧ ∃ r r', o :: (u ++ r) = o' :: (v ++ r') := by
  obtain ⟨s, r, rfl⟩ := hu
  obtain ⟨s', r', heq⟩ := hv
  have hsplit : (s ++ [a]) ++ o :: (u ++ r) = (s' ++ [b]) ++ o' :: (v ++ r') := by
    simpa using heq.symm
  have hparted : InOrder ((s ++ [a]) ++ o :: (u ++ r)) := by simpa using hw
  obtain ⟨hbefore, rfl, hbehind⟩ := hparted.parted hsplit hpos
  exact ⟨(List.cons.inj (List.append_inj' hbefore rfl).2).1, r, r', by rw [hbehind]⟩

namespace Grammar

open Node (tree)

/-! ## Braces as expressions -/

/-- Whether a part is an expression. -/
def Part.IsExpression : Part → Prop
  | .one .expression | .one .arrow | .one .conditional | .one (.level _) | .one .unary
  | .one .suffixed | .one .primary | .one .array | .one .object => True
  | _ => False

/-- An expression is no block, and a record is read from its braces or stands in parentheses. -/
theorem braces_of_expression {p : Part} {w : List Token} {ns : List Node} (h : Produces p w ns)
    (hp : p.IsExpression) : ∀ label pos cs, ns = [tree label pos cs] → label ≠ "block" ∧
      (label = "object" → Produces (.one .object) w ns ∨
        ∃ o v, o :: v <:+: w ∧ o.Is .lpar ∧ Produces (.one .object) v ns) := by
  induction h with
  | expressionArrow _ ih | expressionConditional _ ih | conditionalOperand _ ih
  | unarySuffixed _ ih | suffixedPrimary _ ih | primaryArray _ ih | primaryObject _ ih =>
      exact ih trivial
  | @levelOperand l w x h ih => exact ih (by cases l <;> trivial)
  | object ho items hc =>
      rintro _ _ _ ⟨⟩
      exact ⟨by decide, fun _ => .inl (.object ho items hc)⟩
  | @parenthesized o c w x ho h hc ih =>
      intro label pos cs hx
      obtain ⟨hblock, hobject⟩ := ih trivial label pos cs hx
      refine ⟨hblock, fun hlabel => .inr ?_⟩
      have hinfix : w <:+: o :: (w ++ [c]) := ⟨[o], [c], by simp⟩
      rcases hobject hlabel with hx | ⟨o', v, hv, ho', hx⟩
      · exact ⟨o, w, (List.prefix_append (o :: w) [c]).isInfix, ho, hx⟩
      · exact ⟨o', v, hv.trans hinfix, ho', hx⟩
  | @operation l =>
      rintro _ _ _ ⟨⟩
      exact ⟨by cases l <;> decide, fun h => absurd h (by cases l <;> decide)⟩
  | arrowName | arrowParams | ternary | unaryOperation | call | member | index | number | string
  | trueWord | falseWord | reference | functionExpression | array =>
      rintro _ _ _ ⟨⟩
      exact ⟨by decide, fun h => absurd h (by decide)⟩
  | _ => exact hp.elim

theorem block_head {w : List Token} {x : Node} (h : Produces (.one .block) w [x]) :
    ∃ o v ns, w = o :: v ∧ x = tree "block" (some o.pos) ns := by
  cases h with
  | block => exact ⟨_, _, _, rfl, rfl⟩

theorem object_head {w : List Token} {x : Node} (h : Produces (.one .object) w [x]) :
    ∃ o v ns, w = o :: v ∧ x = tree "object" (some o.pos) ns := by
  cases h with
  | object => exact ⟨_, _, _, rfl, rfl⟩

/-- Braces that are a block and a record, whatever follows them, are ambiguous. -/
theorem isAmbiguous_of_both {o : Token} {v v' r r' : List Token} {ns ns' : List Node}
    (hblock : Produces (.one .block) (o :: v) ns) (hrecord : Produces (.one .object) (o :: v') ns')
    (heq : v ++ r = v' ++ r') : IsAmbiguous (o :: v') := by
  obtain ⟨inside, c, rfl, hinside, hc⟩ : ∃ inside c, v = inside ++ [c] ∧
      (∃ ms, Produces .statements inside ms) ∧ c.kind = .rbrace := by
    generalize hw : o :: v = w at hblock
    cases hblock with
    | block _ body hc => exact ⟨_, _, (List.cons.inj hw).2, ⟨_, body⟩, hc.1⟩
  obtain ⟨inside', c', rfl, hinside', hc'⟩ : ∃ inside c, v' = inside ++ [c] ∧ Balanced inside ∧
      c.kind = .rbrace := by
    generalize hw : o :: v' = w at hrecord
    cases hrecord with
    | object _ items hc => exact ⟨_, _, (List.cons.inj hw).2, balanced_of_produces items, hc.1⟩
  obtain ⟨ms, body⟩ := hinside
  obtain ⟨rfl, rfl, -⟩ := (balanced_of_produces body).eq_of_append_eq hinside' (by rw [hc]; rfl)
    (by rw [hc']; rfl) (by simpa using heq)
  -- What stands behind the brace opens no record if it is a block.
  rcases opensRecord_object hrecord with hambiguous | hopens
  · exact hambiguous
  · have hnone : Phrase.opensRecord (inside ++ [c]) = false :=
      opensRecord_block body hc (by simp)
    have hsome := hopens []
    rw [List.append_nil, hnone] at hsome
    cases hsome

/-! ## One tree that decides -/

theorem AgreesBut.eq {Bodies : Node → Node → Prop} {ms ns : List Node} (h : AgreesBut Bodies ms ns)
    (hbodies : ∀ pos pos' p q a b, (Node.tree "arrow" pos [p, a]).IsAmong ms →
      (Node.tree "arrow" pos' [q, b]).IsAmong ns → ¬ Bodies a b) : ms = ns := by
  induction h with
  | nil => rfl
  | token _ ih =>
      rw [ih fun pos pos' p q a b ha hb =>
        hbodies pos pos' p q a b (Node.isAmong_cons.2 (.inr ha)) (Node.isAmong_cons.2 (.inr hb))]
  | tree _ _ ihChildren ihOthers =>
      have hchildren := ihChildren fun pos pos' p q a b ha hb =>
        hbodies pos pos' p q a b (Node.isAmong_cons.2 (.inl (Node.isIn_tree.2 (.inr ha))))
          (Node.isAmong_cons.2 (.inl (Node.isIn_tree.2 (.inr hb))))
      have hothers := ihOthers fun pos pos' p q a b ha hb =>
        hbodies pos pos' p q a b (Node.isAmong_cons.2 (.inr ha)) (Node.isAmong_cons.2 (.inr hb))
      rw [hchildren, hothers]
  | body _ hboth =>
      exact absurd hboth (hbodies _ _ _ _ _ _ (Node.isAmong_cons.2 (.inl .self))
        (Node.isAmong_cons.2 (.inl .self)))

/-- Where a tree has a block behind an arrow, a tree that decides has no record. -/
theorem not_bothWays_of_decides {w : List Token} {m n : Node} (hw : InOrder w)
    (hm : Reads .start w m) (hn : Decides (.rule .start) w [n]) {pos pos' : Option Position}
    {p q a b : Node} (ha : (tree "arrow" pos [p, a]).IsIn m.normalize)
    (hb : (tree "arrow" pos' [q, b]).IsIn n.normalize) : ¬ BothWays a b := by
  intro hboth
  have hany : DerivesIf (fun _ => True) (.rule .start) w [m] := hm.derivesIf fun _ => trivial
  obtain ⟨s, u, _, y, hu, hs, hbody, hy⟩ := hany.arrow (by simpa using ha)
  obtain ⟨s', v, _, z, hv, hs', hbody', hz⟩ := hn.arrow (by simpa using hb)
  obtain ⟨-, rfl⟩ : p = _ ∧ a = y.normalize := by simpa using hbody
  obtain ⟨-, rfl⟩ : q = _ ∧ b = z.normalize := by simpa using hbody'
  obtain ⟨t, items, fields, hitems, hfields⟩ : ∃ (t : Token) (items fields : List Node),
      y.normalize = tree "block" (some t.pos) items ∧
        z.normalize = tree "object" (some t.pos) fields := by
    rcases bothWays_shape hboth with ⟨t, ha, hb⟩ | ⟨t, _, ha, hb⟩ <;> exact ⟨t, _, _, ha, hb⟩
  -- The one body is read from a block.
  have hblock : Produces (.one .block) u [y.normalize] := by
    rcases hy with hy | ⟨hy, -⟩
    · exact (reads_iff_produces (by decide)).1 ⟨y, hy, rfl⟩
    · have hexpression := (reads_iff_produces (by decide)).1 ⟨y, hy, rfl⟩
      exact absurd rfl (braces_of_expression hexpression trivial _ _ _ (by rw [hitems])).1
  obtain ⟨o, u, _, rfl, ho⟩ := block_head hblock
  obtain ⟨hot, -⟩ : o.pos = t.pos ∧ _ = items := by simpa [hitems] using ho.symm
  -- The other one is an expression, and a record in its own braces or in parentheses.
  rcases hz with hz | ⟨hz, hfits⟩
  · obtain ⟨_, _, _, -, hz⟩ := block_head ((reads_iff_produces (by decide)).1 ⟨z, hz, rfl⟩)
    simp [hfields] at hz
  · have hexpression := (reads_iff_produces (by decide)).1 ⟨z, hz, rfl⟩
    rcases (braces_of_expression hexpression trivial _ _ _ (by rw [hfields])).2 rfl with
      hrecord | ⟨l, v', hv', hl, hrecord⟩
    · obtain ⟨o', v, _, rfl, ho'⟩ := object_head hrecord
      obtain ⟨hto, -⟩ : t.pos = o'.pos ∧ fields = _ := by simpa [hfields] using ho'
      obtain ⟨-, r, r', heq⟩ := hw.before_eq hu hv (hot.trans hto)
      obtain ⟨rfl, hbehind⟩ := List.cons.inj heq
      exact hfits (isAmbiguous_of_both hblock hrecord hbehind)
    · obtain ⟨o', v', _, rfl, ho'⟩ := object_head hrecord
      obtain ⟨hto, -⟩ : t.pos = o'.pos ∧ fields = _ := by simpa [hfields] using ho'
      have hinfix : l :: o' :: v' <:+: w :=
        hv'.trans ((List.suffix_cons s' v).isInfix.trans hv)
      obtain ⟨rfl, -⟩ := hw.before_eq hu hinfix (hot.trans hto)
      cases hs.1.symm.trans hl.1

end Grammar

/-! ## The reader decides -/

namespace Phrase

open Grammar

variable {ts : List Token} {m : Node} {t : Term}

/-- The tree of a derivation that decides is the one that is read. -/
theorem program_of_decides (hts : InOrder ts) (h : Decides (.rule .start) ts [m]) :
    ∃ t, program ts = .ok t ∧ t.toNode = m.normalize := by
  have hm : Reads .start ts m := h.derives
  obtain ⟨n, hn⟩ : ∃ n, Produces (.one .start) ts [n] :=
    ⟨_, (reads_iff_produces (by decide)).1 ⟨m, hm, rfl⟩⟩
  obtain ⟨t, ht, hprefers⟩ := program_of_reads hm
  obtain ⟨m', hm', htree⟩ := reads_of_program (genuine_of_produces hn) ht
  rw [htree] at hprefers
  have hsame := AgreesBut.eq hprefers fun pos pos' p q a b ha hb =>
    not_bothWays_of_decides hts hm' h (Node.isAmong_singleton.1 ha) (Node.isAmong_singleton.1 hb)
  exact ⟨t, ht, htree.trans (List.cons.inj hsame).1⟩

/-- What is read has a derivation that decides. -/
theorem decides_of_program (hgenuine : Genuine ts) (hts : InOrder ts) (h : program ts = .ok t) :
    ∃ m, Decides (.rule .start) ts [m] ∧ t.toNode = m.normalize := by
  obtain ⟨n, hn, -⟩ := reads_of_program hgenuine h
  obtain ⟨xs, hxs⟩ := exists_decides hn
  obtain ⟨m, -, rfl⟩ := holds_of_derives hxs.derives
  obtain ⟨u, hu, htree⟩ := program_of_decides hts hxs
  obtain rfl : t = u := by simpa [h] using hu
  exact ⟨m, hxs, htree⟩

end Phrase

end VariantScript.Syntax
