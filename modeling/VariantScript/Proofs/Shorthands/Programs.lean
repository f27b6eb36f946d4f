import VariantScript.Proofs.Shorthands.Texts

/-!
# Programs that are spelled out

The text of a program in which all shorthands are spelled out is read to the same tree up to places.
The tree itself has no shorthands; its places tell where they were in the text.
-/

namespace VariantScript.Syntax

open Node (tree)

/-! ## Shorthands among tokens -/

namespace Marked

variable {s : Marked} {m : Token × Option Shorthand} {p : Position}

theorem shorthands_cons (m : Token × Option Shorthand) (s : Marked) :
    Marked.shorthands (m :: s) = (m.2.map (m.1.pos, ·)).toList ++ s.shorthands := by
  obtain ⟨t, k⟩ := m
  cases k <;> rfl

/-- At the place of none of the tokens there is no shorthand. -/
theorem lookup_eq_none (h : ¬ IsPlaceOf (s.map Prod.fst) p) : s.shorthands.lookup p = none := by
  rw [List.lookup_eq_none_iff]
  rintro ⟨q, k⟩ hq
  obtain ⟨⟨t, k'⟩, ht, hmark⟩ := List.mem_filterMap.1 hq
  obtain ⟨_, -, heq⟩ := Option.map_eq_some_iff.1 hmark
  cases heq
  exact bne_iff_ne.2 fun hp => h ⟨t, List.mem_map_of_mem ht, hp.symm⟩

/-- The shorthand that a token is can be looked up at its place. -/
theorem lookup_pos (hs : InOrder (s.map Prod.fst)) (hm : m ∈ s) :
    s.shorthands.lookup m.1.pos = m.2 := by
  induction s with
  | nil => cases hm
  | cons n s ih =>
      obtain ⟨hfirst, hothers⟩ := List.pairwise_cons.1 hs
      rw [shorthands_cons, List.lookup_append]
      rcases List.mem_cons.1 hm with rfl | hm
      · have hnone : (Marked.shorthands s).lookup m.1.pos = none :=
          lookup_eq_none fun ⟨t, ht, hp⟩ => Position.ne_of_lt (hfirst t ht) hp.symm
        cases hmark : m.2 with
        | none => simpa using hnone
        | some k => simp
      · have hlt := hfirst m.1 (List.mem_map_of_mem hm)
        have hne := Position.ne_of_lt hlt
        rw [← ih hothers hm]
        cases n.2 with
        | none => simp
        | some k => simp [List.lookup, beq_eq_false_iff_ne.2 hne.symm]

theorem words_eq (hs : InOrder (s.map Prod.fst)) :
    s.words = (s.map Prod.fst).flatMap fun t => t.spellOut (s.shorthands.lookup t.pos) := by
  rw [Marked.words, List.flatMap_map]
  exact List.flatMap_congr fun m hm => by rw [lookup_pos hs hm]

end Marked

/-! ## Trees that are read -/

namespace Phrase

open Grammar

variable {w : List Token} {t : Term} {n : Node}

/-- No shorthand is left in the tree of a program. -/
theorem label_of_program (hw : Genuine w) (h : program w = .ok t) {label : String}
    {pos : Option Position} {children : List Node}
    (hx : (tree label pos children).IsIn t.toNode) : label ∉ Node.sugarLabels := by
  have hinner : ∀ label ∈ innerLabels, label ∉ Node.sugarLabels := by decide
  generalize ht : t.toNode = n at hx
  cases ht ▸ produces_of_program hw h with
  | start hstatements =>
      rcases Node.isIn_tree.1 hx with heq | hx
      · cases heq
        decide
      · exact hinner _ ((laid_of_produces hstatements trivial).label hx)

/-- The normal form of the tree of a program is the tree spelled out. -/
theorem toNode_eq_desugared (hw : Genuine w) (h : program w = .ok t)
    (hn : t.toNode = n.normalize) : t.toNode = n.desugared := by
  rw [← Node.desugared_normalize, ← hn, Node.desugared_eq_self fun _ _ _ => label_of_program hw h]

end Phrase

/-! ## Programs -/

namespace Program

open Grammar

/-- The text of a program with its shorthands spelled out, each where its name stands. -/
def spellOut (t : Term) (source : List Char) : List Char :=
  Lexeme.spellOut (fun p => t.toNode.shorthands.lookup p) .start (Lexeme.ofText source).1

/-- A text is read, and what it is read to is the normal form of a tree of the grammar. -/
structure ReadsAs (source : List Char) (t : Term) (m : Node) : Prop where
  read : Program.read source = .ok t
  tree : Reads .start (tokensOf source).1 m
  normal : t.toNode = m.normalize

/-- The shorthands of a program are those that the grammar finds in its text.  With all of them
spelled out, the text has none and is read to the same tree up to places.  No tree that is read has
one. -/
theorem read_spellOut {source : List Char} {t : Term} (h : Program.read source = .ok t) :
    (∃ n, ReadsAs source t n ∧ n.sugars = t.toNode.shorthands) ∧
      (∃ u m, ReadsAs (spellOut t source) u m ∧ AreFull [m] ∧ u.toNode.bare = t.toNode.bare) ∧
        ∀ label pos children, (tree label pos children).IsIn t.toNode →
          label ∉ Node.sugarLabels := by
  obtain ⟨hleft, hprogram⟩ := tokens_of_read h
  have horder := tokensOf_inOrder source
  have hgenuine := genuine_tokensOf source
  obtain ⟨n, hn, hnormal⟩ := Phrase.decides_of_program hgenuine horder hprogram
  have hspelled := Phrase.toNode_eq_desugared hgenuine hprogram hnormal
  obtain ⟨s, hs, hspells⟩ := exists_spellsOut hn horder
  have hmarks : s.shorthands = t.toNode.shorthands := by
    simpa [hspelled] using hspells.shorthands
  -- The new text has the words that the tokens stand for, and these have a derivation.
  have hwords : wordsOf (spellOut t source) = (s.words, []) := by
    have hcalm := (settled_of_produces (Phrase.produces_of_program hgenuine hprogram)).calm
    rw [spellOut, wordsOf_spellOut _ _ _ hleft hcalm, ← tokensOf_eq, ← hmarks,
      Marked.words_eq (hs ▸ horder), hs]
  rw [← wordsOf_tokensOf] at hwords
  obtain ⟨hsame, hend⟩ := Prod.mk.inj hwords
  obtain ⟨ms, hms, hbare, hfull⟩ := hspells.derives _ hsame
  obtain ⟨m, -, rfl⟩ := holds_of_derives hms.derives
  obtain ⟨u, hu, hnormal'⟩ := Phrase.program_of_decides (tokensOf_inOrder _) hms
  have hspelled' := Phrase.toNode_eq_desugared (genuine_tokensOf _) hu hnormal'
  refine ⟨⟨n, ⟨h, hn.derives, hnormal⟩, ?_⟩,
    ⟨u, m, ⟨read_of_ok hu hend, hms.derives, hnormal'⟩, hfull, ?_⟩,
    fun _ _ _ => Phrase.label_of_program hgenuine hprogram⟩
  · simpa [hmarks] using hspells.sugars.symm
  · simpa [hspelled, hspelled'] using hbare

/-- Braces in an array are spelled out, braces behind an arrow are a block and stay. -/
theorem read_spellOut_braces :
    ∃ t u, Program.read "({p})=>x=>[{p},y=>{p}]".toList = .ok t ∧
      Program.read "({p: p})=>(x)=>[{p: p},(y)=>{p}]".toList = .ok u ∧
        u.toNode.bare = t.toNode.bare := by
  obtain ⟨t, ht⟩ := Program.exists_of_isOk
    (by decide +kernel : (Program.read "({p})=>x=>[{p},y=>{p}]".toList).isOk = true)
  have htext : spellOut t "({p})=>x=>[{p},y=>{p}]".toList =
      "({p: p})=>(x)=>[{p: p},(y)=>{p}]".toList := by
    have hall : (Program.read "({p})=>x=>[{p},y=>{p}]".toList).toOption.map
        (fun t => spellOut t "({p})=>x=>[{p},y=>{p}]".toList) =
          some "({p: p})=>(x)=>[{p: p},(y)=>{p}]".toList := by
      decide +kernel
    rw [ht] at hall
    exact Option.some.inj hall
  obtain ⟨-, ⟨u, m, hu, -, hsame⟩, -⟩ := read_spellOut ht
  rw [htext] at hu
  exact ⟨t, u, ht, hu.read, hsame⟩

end Program

end VariantScript.Syntax
