import VariantScript.Proofs.Places.Braces
import VariantScript.Proofs.Shorthands.Spelling

/-!
# Derivations of what is spelled out

If some of the tokens of a derivation are shorthands, the words that they are short for have a
derivation too, and its tree is the same up to places.  So by the rules for fields, patterns and
parameters, and then for every expansion.  A derivation that decides stays one: no braces become a
block by what is spelled out in them.
-/

namespace VariantScript.Syntax

/-- The words that a token stands for: itself, or what it is short for. -/
def Token.spellOut (t : Token) : Option Shorthand → List Word
  | none => [t.word]
  | some .field => [t.word, ⟨.colon, ":"⟩, t.word]
  | some .parameter => [⟨.lpar, "("⟩, t.word, ⟨.rpar, ")"⟩]

/-- Tokens that may be shorthands. -/
abbrev Marked := List (Token × Option Shorthand)

/-- The shorthands among tokens, with their places. -/
def Marked.shorthands (s : Marked) : List (Position × Shorthand) :=
  s.filterMap fun m => m.2.map (m.1.pos, ·)

/-- The words that tokens stand for. -/
def Marked.words (s : Marked) : List Word :=
  s.flatMap fun m => m.1.spellOut m.2

theorem Marked.shorthands_append (s s' : Marked) :
    Marked.shorthands (s ++ s') = s.shorthands ++ s'.shorthands :=
  List.filterMap_append

theorem Marked.words_append (s s' : Marked) : Marked.words (s ++ s') = s.words ++ s'.words :=
  List.flatMap_append

/-- A token of the same word is of the same kind. -/
theorem Token.Is.of_word {t u : Token} {kind : TokenKind} (h : t.Is kind)
    (hword : u.word = t.word) : u.Is kind := by
  obtain ⟨k, text, p⟩ := t
  obtain ⟨k', text', p'⟩ := u
  obtain ⟨rfl, rfl⟩ : k' = k ∧ text' = text := by simpa [Token.word] using hword
  exact h

/-! ## Leaves -/

@[simp] theorem Token.pos_leaf (t : Token) : t.leaf.pos = some t.pos := rfl

@[simp] theorem Token.desugared_leaf (t : Token) : t.leaf.desugared = t.leaf :=
  Node.desugared_token

@[simp] theorem Token.sugars_leaf (t : Token) : t.leaf.sugars = [] :=
  Node.sugars_token

@[simp] theorem Token.shorthands_leaf (t : Token) : t.leaf.shorthands = [] :=
  Node.shorthands_token

theorem Token.bare_leaf {t u : Token} (h : u.word = t.word) : u.leaf.bare = t.leaf.bare := by
  obtain ⟨hkind, htext⟩ : u.kind = t.kind ∧ u.text = t.text := by
    simpa [Token.word] using h
  simp [Token.leaf, Node.leaf, Token.spelled, hkind, htext]

namespace Grammar

open Node (tree shorthandLabels)

/-- The expansion with a list of parameters in the place of a lone one. -/
def Expansion.spellOut : Expansion → Expansion
  | .rule .singleParam => .rule .params
  | .rule r => .rule r
  | .seq a b => .seq a.spellOut b.spellOut
  | .either a b => .either a.spellOut b.spellOut
  | .optional a => .optional a.spellOut
  | .many a => .many a.spellOut
  | e => e

/-- Trees of a derivation that have no shorthands in them. -/
def AreFull (ns : List Node) : Prop :=
  ∀ label pos children, (tree label pos children).IsAmong ns → label ∉ shorthandLabels

/-- What tokens are spelled out as is derived without shorthands, with the same trees up to places. -/
structure SpellsOut (e : Expansion) (xs : List Node) (s : Marked) : Prop where
  /-- The tokens are the shorthands of the trees. -/
  sugars : s.shorthands = Node.sugarsAll xs
  /-- They can be told from the trees that are spelled out, too. -/
  shorthands : s.shorthands = Node.shorthandsAll (Node.desugaredAll xs)
  derives (w : List Token) (h : w.map Token.word = s.words) :
    ∃ ys, Decides e.spellOut w ys ∧
      Node.bareAll (Node.desugaredAll ys) = Node.bareAll (Node.desugaredAll xs) ∧ AreFull ys

variable {Fits : List Token → Prop} {e : Expansion} {r : Rule} {label? : Option String}
  {v w : List Token} {x : Node} {xs ys : List Node} {s : Marked}

/-! ## Trees without shorthands -/

namespace AreFull

theorem nil : AreFull [] := by
  intro label pos children h
  simp at h

theorem leaf (t : Token) : AreFull [t.leaf] := by
  intro label pos children h
  simp [Token.leaf, Node.leaf] at h

theorem tree {label : String} {pos : Option Position} (hlabel : label ∉ shorthandLabels)
    (h : AreFull xs) : AreFull [.tree label pos xs] := by
  intro label' pos' children hx
  rw [Node.isAmong_singleton, Node.isIn_tree] at hx
  rcases hx with heq | hx
  · cases heq
    exact hlabel
  · exact h _ _ _ hx

theorem append (h : AreFull xs) (h' : AreFull ys) : AreFull (xs ++ ys) := by
  intro label pos children hx
  rw [Node.isAmong_append] at hx
  exact hx.elim (h _ _ _) (h' _ _ _)

theorem build (h : AreFull xs) (hlabel : label?.getD r.label ∉ shorthandLabels) :
    AreFull (r.build label? w xs) := by
  unfold Rule.build
  split
  · exact .tree hlabel h
  · exact h
  · exact h
  · exact .tree hlabel h

end AreFull

/-! ## Braces -/

theorem Expansion.eq_of_spellOut {r : Rule} (hr : r ≠ .params) (h : e.spellOut = .rule r) :
    e = .rule r := by
  unfold spellOut at h
  split at h
  · cases h
    exact absurd rfl hr
  all_goals first | exact h | cases h

/-- In ambiguous braces nothing is spelled out. -/
theorem mark_of_isAmbiguous (hkinds : s.words.map Word.kind = w.map Token.kind)
    (h : IsAmbiguous w) {m : Token × Option Shorthand} (hm : m ∈ s) : m.2 = none := by
  have hmem (u : Word) (hu : u ∈ m.1.spellOut m.2) : u.kind ∈ w.map Token.kind := by
    rw [← hkinds]
    exact List.mem_map_of_mem (List.mem_flatMap.2 ⟨m, hm, hu⟩)
  cases hmark : m.2 with
  | none => rfl
  | some k =>
      rw [hmark] at hmem
      cases k with
      | field =>
          have hcolon := hmem ⟨.colon, ":"⟩ (by simp [Token.spellOut])
          rcases h with h | h <;> simp [h] at hcolon
      | parameter =>
          have hlpar := hmem ⟨.lpar, "("⟩ (by simp [Token.spellOut])
          rcases h with h | h <;> simp [h] at hlpar

/-- What is spelled out is ambiguous only if it has no shorthands. -/
theorem isAmbiguous_of_spellOut (hwords : w.map Token.word = s.words) (h : IsAmbiguous w) :
    IsAmbiguous (s.map Prod.fst) := by
  have hkinds : s.words.map Word.kind = w.map Token.kind := by
    rw [← hwords, List.map_map]
    rfl
  have hsame : s.words = s.map fun m => m.1.word := by
    rw [Marked.words, List.map_eq_flatMap]
    exact List.flatMap_congr fun m hm => by rw [mark_of_isAmbiguous hkinds h hm]; rfl
  rw [hsame, List.map_map] at hkinds
  unfold IsAmbiguous at h ⊢
  rw [← hkinds] at h
  rw [List.map_map]
  exact h

/-! ## Rules -/

/-- A lone parameter is written in one place only. -/
theorem DerivesIf.of_spellOut (mem : (e, label?) ∈ r.alternatives)
    (h : DerivesIf Fits e.spellOut w xs) : DerivesIf Fits e w xs := by
  by_cases hr : r = .arrow
  · subst hr
    simp only [Rule.alternatives, List.mem_cons, List.not_mem_nil, or_false, Prod.mk.injEq] at mem
    obtain ⟨rfl, -⟩ := mem
    cases h with
    | seq first others =>
        refine .seq ?_ others
        cases first with
        | eitherFirst h => exact .eitherSecond h (by rintro ⟨⟩)
        | eitherSecond h => exact .eitherSecond h (by rintro ⟨⟩)
  · have hsame : e.spellOut = e := by
      have hall : ∀ a ∈ r.alternatives, a.1.spellOut = a.1 := by
        cases r with
        | arrow => exact absurd rfl hr
        | level l => cases l <;> decide
        | _ => decide
      exact hall _ mem
    rwa [hsame] at h

/-- A rule makes the same trees up to places of the same trees up to places. -/
theorem bareAll_build (h : Node.bareAll (Node.desugaredAll ys) =
      Node.bareAll (Node.desugaredAll xs)) :
    Node.bareAll (Node.desugaredAll (r.build label? v ys)) =
      Node.bareAll (Node.desugaredAll (r.build label? w xs)) := by
  have htree (label : String) : Node.bareAll (Node.desugaredAll [tree label (startOf v) ys]) =
      Node.bareAll (Node.desugaredAll [tree label (startOf w) xs]) := by
    simp [Node.bare_desugar, h]
  cases label? with
  | some label => exact htree label
  | none =>
      unfold Rule.build
      cases r.shape with
      | inlined => exact h
      | labelled => exact htree r.label
      | collapsing =>
          -- There is one child on both sides or on none of them.
          rcases xs with _ | ⟨x, _ | ⟨x', xs⟩⟩ <;> rcases ys with _ | ⟨y, _ | ⟨y', ys⟩⟩
          case cons.nil.cons.nil => exact h
          all_goals first | exact htree r.label | simp at h

/-- A shorthand is a name. -/
theorem shorthand_alternative (mem : (e, label?) ∈ r.alternatives)
    (h : label?.getD r.label ∈ shorthandLabels) : e = .terminal .name ∧
      ((r = .singleParam ∧ label? = none) ∨ (r = .field ∧ label? = some "shorthand_field") ∨
        (r = .patternField ∧ label? = some "pattern_shorthand")) := by
  have hall : ∀ a ∈ r.alternatives, a.2.getD r.label ∈ shorthandLabels → a.1 = .terminal .name ∧
      ((r = .singleParam ∧ a.2 = none) ∨ (r = .field ∧ a.2 = some "shorthand_field") ∨
        (r = .patternField ∧ a.2 = some "pattern_shorthand")) := by
    cases r with
    | level l => cases l <;> decide
    | _ => decide
  exact hall _ mem h

/-- A key that is written out is no shorthand. -/
theorem shorthand?_of_key {label : String} {q : Rule} {pos : Option Position}
    (h : Derives (Expansion.sequence [.rule .key, .mark .colon, .rule q]) w xs)
    (hlabel : label ∈ ["field", "pattern_field"]) :
    Node.shorthand? label pos (Node.desugaredAll xs) = none := by
  obtain ⟨_, _, _, _, ⟨k, -, -, rfl⟩, -, -, rfl⟩ := holds_of_derives h
  exact Node.shorthand?_of_key_some hlabel k.pos

/-- Parameters in parentheses are no shorthand. -/
theorem shorthand?_of_params
    (h : Derives (Expansion.sequence [.mark .lpar, .commaList (.rule .pattern), .mark .rpar]) w xs)
    (hw : InOrder w) :
    Node.shorthand? "params" (startOf w) (Node.desugaredAll xs) = none := by
  obtain ⟨o, u, c, -, items, -, rfl⟩ := holds_between (holds_of_derives h)
  have hlaid := laid_of_produces (produces_list_of_holds (isPlain_of_ne (by decide)) items) trivial
  unfold Node.shorthand?
  split
  · simp_all
  · simp_all
  · rename_i name _ hname
    obtain ⟨x, rfl, rfl⟩ : ∃ x, xs = [x] ∧ x.desugared = name := by
      match xs with
      | [x] => exact ⟨x, rfl, by simpa using hname⟩
      | [] | _ :: _ :: _ => simp at hname
    rw [if_neg]
    intro hpos
    -- A parameter stands behind the parenthesis.
    have hplace : x.normalize.pos = some o.pos := by
      rw [← Node.pos_desugared, Node.desugared_normalize]
      exact hpos
    obtain ⟨t, ht, hto⟩ := hlaid.place (by simpa using .self) hplace
    have hlt := (List.pairwise_cons.1 hw).1 t (List.mem_append_left _ ht)
    exact Position.ne_of_lt hlt hto.symm
  · rfl

/-- Where keys and parameters are written out. -/
theorem written_alternative (mem : (e, label?) ∈ r.alternatives)
    (h : label?.getD r.label ∈ ["field", "pattern_field", "params"]) :
    (label?.getD r.label ∈ ["field", "pattern_field"] ∧
        ∃ q, e = .sequence [.rule .key, .mark .colon, .rule q]) ∨
      label?.getD r.label = "params" ∧
        e = .sequence [.mark .lpar, .commaList (.rule .pattern), .mark .rpar] := by
  have hall : ∀ a ∈ r.alternatives, a.2.getD r.label ∈ ["field", "pattern_field", "params"] →
      (a.2.getD r.label ∈ ["field", "pattern_field"] ∧
          a.1 ∈ [Rule.expression, .pattern].map fun q =>
            Expansion.sequence [.rule .key, .mark .colon, .rule q]) ∨
        a.2.getD r.label = "params" ∧
          a.1 = .sequence [.mark .lpar, .commaList (.rule .pattern), .mark .rpar] := by
    cases r with
    | level l => cases l <;> decide
    | _ => decide
  refine (hall _ mem h).imp_left fun ⟨hlabel, hmem⟩ => ⟨hlabel, ?_⟩
  obtain ⟨q, -, hq⟩ := List.mem_map.1 hmem
  exact ⟨q, hq.symm⟩

/-- Any other rule makes no shorthand. -/
theorem shorthand?_eq_none (mem : (e, label?) ∈ r.alternatives) (h : Derives e w xs)
    (hw : InOrder w) :
    Node.shorthand? (label?.getD r.label) (startOf w) (Node.desugaredAll xs) = none := by
  by_cases hlabel : label?.getD r.label ∈ ["field", "pattern_field", "params"]
  · rcases written_alternative mem hlabel with ⟨hfield, q, rfl⟩ | ⟨hparams, rfl⟩
    · exact shorthand?_of_key h hfield
    · rw [hparams]
      exact shorthand?_of_params h hw
  · exact Node.shorthand?_of_ne hlabel

theorem shorthandsAll_build (mem : (e, label?) ∈ r.alternatives) (h : Derives e w xs)
    (hw : InOrder w) (hlabel : label?.getD r.label ∉ shorthandLabels) :
    Node.shorthandsAll (Node.desugaredAll (r.build label? w xs)) =
      Node.shorthandsAll (Node.desugaredAll xs) := by
  have hnone := shorthand?_eq_none mem h hw
  have htree : Node.shorthandsAll (Node.desugaredAll [tree (label?.getD r.label) (startOf w) xs]) =
      Node.shorthandsAll (Node.desugaredAll xs) := by
    by_cases hstart : label?.getD r.label = "start"
    · simp [hstart, Node.desugar, Node.shorthand?]
    · have hsugar : label?.getD r.label ∉ Node.sugarLabels := by
        simpa [Node.sugarLabels, shorthandLabels, hstart] using hlabel
      simp [Node.desugar_of_ne hsugar, hnone]
  cases label? with
  | some label => exact htree
  | none =>
      unfold Rule.build
      cases r.shape with
      | inlined => rfl
      | labelled => exact htree
      | collapsing =>
          rcases xs with _ | ⟨x, _ | ⟨x', xs⟩⟩
          case cons.nil => rfl
          all_goals exact htree

theorem sugarsAll_build (hlabel : label?.getD r.label ∉ shorthandLabels) :
    Node.sugarsAll (r.build label? w xs) = Node.sugarsAll xs := by
  have hnone : Node.sugar? (label?.getD r.label) (startOf w) = none := Node.sugar?_of_ne hlabel
  unfold Rule.build
  split <;> simp_all

/-! ## Shorthands -/

theorem derivesIf_bind {t : Token} (ht : t.Is .name) :
    DerivesIf Fits (.rule .pattern) [t] [bindTree t] := by
  rw [bindTree, ← leaf_of_is ht]
  exact .of_mem (.head _) (.terminal ht) rfl

theorem derivesIf_key {t : Token} (ht : t.Is .name) :
    DerivesIf Fits (.rule .key) [t] [keyTree t] := by
  rw [keyTree, ← leaf_of_is ht]
  exact .of_mem (.head _) (.terminal ht) rfl

/-- The word of a token that is no shorthand. -/
theorem exists_of_word {t : Token} (h : w.map Token.word = Marked.words [(t, none)]) :
    ∃ u, w = [u] ∧ u.word = t.word := by
  simpa [Marked.words, Token.spellOut, List.map_eq_singleton_iff] using h

/-- A lone parameter is spelled out as a list. -/
theorem spellsOut_parameter {t : Token} (ht : t.Is .name) :
    SpellsOut (.rule .singleParam) [tree "single_param" (some t.pos) [t.leaf]]
      [(t, some .parameter)] where
  sugars := by simp [Marked.shorthands, Node.sugar?]
  shorthands := by simp [Marked.shorthands, Node.desugar, Node.shorthand?, Node.pos]
  derives w h := by
    obtain ⟨o, u, c, rfl, ho, hu, hc⟩ : ∃ o u c, w = [o, u, c] ∧ o.word = ⟨.lpar, "("⟩ ∧
        u.word = t.word ∧ c.word = ⟨.rpar, ")"⟩ := by
      simpa [Marked.words, Token.spellOut, List.map_eq_cons_iff] using h
    have hparams : Decides (.rule .params) [o, u, c] [tree "params" (some o.pos) [bindTree u]] :=
      .of_mem (.head _) (.seq (.mark ((TokenKind.sample_is .lpar).of_word ho))
        (.seq (.optionalSome (.seq (derivesIf_bind (ht.of_word hu)) (.seq .manyNone .optionalNone)))
          (.mark ((TokenKind.sample_is .rpar).of_word hc)))) rfl
    refine ⟨_, hparams, by simp [Node.desugar, bindTree, Token.bare_leaf hu], ?_⟩
    exact .tree (by decide) (.tree (by decide) (.leaf u))

/-- The words of a name that is short for a field. -/
theorem exists_of_fieldWords {t : Token} (ht : t.Is .name)
    (h : w.map Token.word = Marked.words [(t, some .field)]) :
    ∃ k c u, w = [k, c, u] ∧ k.word = t.word ∧ c.Is .colon ∧ u.word = t.word ∧ k.Is .name ∧
      u.Is .name := by
  obtain ⟨k, c, u, rfl, hk, hc, hu⟩ : ∃ k c u, w = [k, c, u] ∧ k.word = t.word ∧
      c.word = ⟨.colon, ":"⟩ ∧ u.word = t.word := by
    simpa [Marked.words, Token.spellOut, List.map_eq_cons_iff] using h
  have hcolon : c.Is .colon := (TokenKind.sample_is .colon).of_word hc
  exact ⟨k, c, u, rfl, hk, hcolon, hu, ht.of_word hk, ht.of_word hu⟩

/-- A key, a colon and what a field is to be are the field. -/
theorem decides_field {q : Rule} {k c u : Token}
    (mem : (Expansion.sequence [.rule .key, .mark .colon, .rule q], none) ∈ r.alternatives)
    (hr : r.shape = .labelled) (hk : k.Is .name) (hc : c.Is .colon)
    (hu : Decides (.rule q) [u] [x]) :
    Decides (.rule r) [k, c, u] [tree r.label (some k.pos) [keyTree k, x]] :=
  .of_mem mem (.seq (derivesIf_key hk) (.seq (.mark hc) hu)) (by simp [Rule.build, hr, startOf])

/-- A field whose name stands for its value is spelled out with the name as its key. -/
theorem spellsOut_field {t : Token} (ht : t.Is .name) :
    SpellsOut (.rule .field) [tree "shorthand_field" (some t.pos) [t.leaf]] [(t, some .field)] where
  sugars := by simp [Marked.shorthands, Node.sugar?]
  shorthands := by simp [Marked.shorthands, Node.desugar, Node.shorthand?]
  derives w h := by
    obtain ⟨k, c, u, rfl, hk, hc, hu, hkey, hname⟩ := exists_of_fieldWords ht h
    refine ⟨_, decides_field (.head _) rfl hkey hc (derivesIf_name hname), ?_, ?_⟩
    · simp [Rule.label, Node.desugar, keyTree, referenceTree, Token.bare_leaf hk, Token.bare_leaf hu]
    · exact .tree (by decide) (.append (.tree (by decide) (.leaf k)) (.tree (by decide) (.leaf u)))

/-- A pattern of a field that has the name of the field is spelled out with it as the key. -/
theorem spellsOut_patternField {t : Token} (ht : t.Is .name) :
    SpellsOut (.rule .patternField) [tree "pattern_shorthand" (some t.pos) [t.leaf]]
      [(t, some .field)] where
  sugars := by simp [Marked.shorthands, Node.sugar?]
  shorthands := by simp [Marked.shorthands, Node.desugar, Node.shorthand?]
  derives w h := by
    obtain ⟨k, c, u, rfl, hk, hc, hu, hkey, hname⟩ := exists_of_fieldWords ht h
    refine ⟨_, decides_field (.head _) rfl hkey hc (derivesIf_bind hname), ?_, ?_⟩
    · simp [Rule.label, Node.desugar, keyTree, bindTree, Token.bare_leaf hk, Token.bare_leaf hu]
    · exact .tree (by decide) (.append (.tree (by decide) (.leaf k)) (.tree (by decide) (.leaf u)))

/-! ## All expansions -/

/-- The three shorthands. -/
theorem spellsOut_shorthand (mem : (e, label?) ∈ r.alternatives) (h : Decides e w xs)
    (hlabel : label?.getD r.label ∈ shorthandLabels) :
    ∃ s : Marked, s.map Prod.fst = w ∧ SpellsOut (.rule r) (r.build label? w xs) s := by
  obtain ⟨rfl, hr⟩ := shorthand_alternative mem hlabel
  cases h with
  | @terminal t _ ht =>
      rw [leaf_of_is ht]
      rcases hr with ⟨rfl, rfl⟩ | ⟨rfl, rfl⟩ | ⟨rfl, rfl⟩
      · exact ⟨_, rfl, spellsOut_parameter ht⟩
      · exact ⟨_, rfl, spellsOut_field ht⟩
      · exact ⟨_, rfl, spellsOut_patternField ht⟩

/-- Any other rule. -/
theorem SpellsOut.rule (hs : SpellsOut e xs s) (mem : (e, label?) ∈ r.alternatives)
    (h : Decides e w xs) (hw : InOrder w) (hlabel : label?.getD r.label ∉ shorthandLabels) :
    SpellsOut (.rule r) (r.build label? w xs) s where
  sugars := by rw [hs.sugars, sugarsAll_build hlabel]
  shorthands := by rw [hs.shorthands, shorthandsAll_build mem h.derives hw hlabel]
  derives v hwords := by
    obtain ⟨ys, hys, hbare, hfull⟩ := hs.derives v hwords
    have hbody := DerivesIf.of_spellOut mem hys
    have hrule : (Expansion.rule r).spellOut = .rule r := by
      cases r with
      | singleParam =>
          obtain ⟨-, rfl⟩ : e = .terminal .name ∧ label? = none := by
            simpa [Rule.alternatives] using mem
          exact absurd (by decide) hlabel
      | _ => rfl
    exact ⟨_, by rw [hrule]; exact .rule mem hbody, bareAll_build hbare, hfull.build hlabel⟩

/-- No tokens. -/
theorem spellsOut_nil (h : Decides e.spellOut [] []) : SpellsOut e [] [] where
  sugars := by simp [Marked.shorthands]
  shorthands := by simp [Marked.shorthands]
  derives w hwords := by
    obtain rfl : w = [] := List.map_eq_nil_iff.1 hwords
    exact ⟨[], h, rfl, .nil⟩

/-- Tokens that another expansion derives too. -/
theorem SpellsOut.of_imp {a f : Expansion} (hs : SpellsOut a xs s)
    (hf : ∀ v ys, v.map Token.word = s.words → Decides a.spellOut v ys →
      Decides f.spellOut v ys) : SpellsOut f xs s where
  sugars := hs.sugars
  shorthands := hs.shorthands
  derives v hwords := by
    obtain ⟨ys, hys, hsame⟩ := hs.derives v hwords
    exact ⟨ys, hf v ys hwords hys, hsame⟩

/-- Tokens in two parts. -/
theorem SpellsOut.append {a b f : Expansion} {s' : Marked} (hs : SpellsOut a xs s)
    (hs' : SpellsOut b ys s')
    (hf : ∀ u v xs ys, Decides a.spellOut u xs → Decides b.spellOut v ys →
      Decides f.spellOut (u ++ v) (xs ++ ys)) : SpellsOut f (xs ++ ys) (s ++ s') where
  sugars := by simp [Marked.shorthands_append, hs.sugars, hs'.sugars]
  shorthands := by simp [Marked.shorthands_append, hs.shorthands, hs'.shorthands]
  derives w h := by
    rw [Marked.words_append] at h
    obtain ⟨u, v, rfl, hu, hv⟩ := List.map_eq_append_iff.1 h
    obtain ⟨xs', hxs, hbare, hfull⟩ := hs.derives u hu
    obtain ⟨ys', hys, hbare', hfull'⟩ := hs'.derives v hv
    exact ⟨xs' ++ ys', hf u v _ _ hxs hys, by simp [hbare, hbare'], hfull.append hfull'⟩

/-- Every derivation that decides can be spelled out. -/
theorem exists_spellsOut (h : Decides e w xs) (hw : InOrder w) :
    ∃ s : Marked, s.map Prod.fst = w ∧ SpellsOut e xs s := by
  induction h with
  | empty => exact ⟨[], rfl, spellsOut_nil .empty⟩
  | @mark t kind ht =>
      refine ⟨[(t, none)], rfl, by simp [Marked.shorthands], by simp [Marked.shorthands],
        fun w h => ?_⟩
      obtain ⟨u, rfl, hu⟩ := exists_of_word h
      exact ⟨[], .mark (ht.of_word hu), rfl, .nil⟩
  | @terminal t kind ht =>
      rw [leaf_of_is ht]
      refine ⟨[(t, none)], rfl, by simp [Marked.shorthands], by simp [Marked.shorthands],
        fun w h => ?_⟩
      obtain ⟨u, rfl, hu⟩ := exists_of_word h
      have hleaf : Decides (.terminal kind) [u] [u.leaf] := by
        rw [← leaf_of_is (ht.of_word hu)]
        exact .terminal (ht.of_word hu)
      exact ⟨[u.leaf], hleaf, by simp [Token.bare_leaf hu], .leaf u⟩
  | @rule r e label? w xs mem body ih =>
      by_cases hlabel : label?.getD r.label ∈ shorthandLabels
      · exact spellsOut_shorthand mem body hlabel
      · obtain ⟨s, hsw, hs⟩ := ih hw
        exact ⟨s, hsw, hs.rule mem body hw hlabel⟩
  | @seq a b u v xs ys _ _ ihFirst ihSecond =>
      obtain ⟨hu, hv, -⟩ := List.pairwise_append.1 hw
      obtain ⟨s, rfl, hs⟩ := ihFirst hu
      obtain ⟨s', rfl, hs'⟩ := ihSecond hv
      exact ⟨s ++ s', List.map_append, hs.append hs' fun _ _ _ _ => .seq⟩
  | @manyMore a u v xs ys _ _ ihFirst ihOthers =>
      obtain ⟨hu, hv, -⟩ := List.pairwise_append.1 hw
      obtain ⟨s, rfl, hs⟩ := ihFirst hu
      obtain ⟨s', rfl, hs'⟩ := ihOthers hv
      exact ⟨s ++ s', List.map_append, hs.append hs' fun _ _ _ _ => .manyMore⟩
  | eitherFirst _ ih =>
      obtain ⟨s, hsw, hs⟩ := ih hw
      exact ⟨s, hsw, hs.of_imp fun _ _ _ => .eitherFirst⟩
  | eitherSecond _ hfits ih =>
      obtain ⟨s, rfl, hs⟩ := ih hw
      refine ⟨s, rfl, hs.of_imp fun v ys hwords hys => .eitherSecond hys fun ha hb hv => ?_⟩
      exact hfits (Expansion.eq_of_spellOut (by decide) ha) (Expansion.eq_of_spellOut (by decide) hb)
        (isAmbiguous_of_spellOut hwords hv)
  | optionalNone => exact ⟨[], rfl, spellsOut_nil .optionalNone⟩
  | optionalSome _ ih =>
      obtain ⟨s, hsw, hs⟩ := ih hw
      exact ⟨s, hsw, hs.of_imp fun _ _ _ => .optionalSome⟩
  | manyNone => exact ⟨[], rfl, spellsOut_nil .manyNone⟩

end Grammar

end VariantScript.Syntax
