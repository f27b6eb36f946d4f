import VariantScript.Proofs.Layout.Spacing
import VariantScript.Proofs.Shorthands.Derivations

/-!
# Texts that are spelled out

In the text of a program, a name that is a shorthand can be replaced by what it is short for.  The
words of the new text are those of the old one with the words of each shorthand replaced: colons and
parentheses are in no other token, so what stands in front of them ends there, and the new text has
the same lexemes everywhere else.
-/

namespace VariantScript.Syntax

namespace Lexeme

/-- What a lexeme is spelled out as. -/
def spelledAs (l : Lexeme) : Option Shorthand → List Char
  | none => l.text
  | some .field => l.text ++ ':' :: ' ' :: l.text
  | some .parameter => '(' :: (l.text ++ [')'])

/-- The shorthand that a lexeme is, if shorthands are told by their places. -/
def shorthand? (marks : Position → Option Shorthand) (p : Position) (l : Lexeme) :
    Option Shorthand :=
  if l.isIgnored then none else marks p

/-- The text of lexemes that lie side by side from a place on, with shorthands spelled out. -/
def spellOut (marks : Position → Option Shorthand) (p : Position) : List Lexeme → List Char
  | [] => []
  | l :: ls => l.spelledAs (l.shorthand? marks p) ++ spellOut marks (p.after l.text) ls

variable {marks : Position → Option Shorthand} {p : Position} {l : Lexeme} {ls : List Lexeme}

/-- A text goes on as before up to the first shorthand. -/
theorem goesOnLike_spellOut (hls : ∀ l ∈ ls, l.text ≠ []) :
    GoesOnLike ls (spellOut marks p ls) := by
  induction ls generalizing p with
  | nil => exact .inl rfl
  | cons l ls ih =>
      have hl := hls l (.head _)
      rw [spellOut]
      cases hmark : l.shorthand? marks p with
      | none => exact (ih fun l hl => hls l (.tail _ hl)).cons hl
      | some s =>
          cases s with
          | field =>
              exact .inr ⟨l.text, joined ls, ':',
                ' ' :: (l.text ++ spellOut marks (p.after l.text) ls), rfl, by simp [spelledAs],
                isBreak_of_mem (by simp), fun hnil => absurd hnil hl⟩
          | parameter =>
              have htoken : l.isIgnored = false := by
                unfold shorthand? at hmark
                split at hmark
                · cases hmark
                · rename_i h
                  simpa using h
              exact .inr ⟨[], _, '(', _, rfl, rfl, isBreak_of_mem (by simp),
                fun _ => ⟨l, rfl, htoken⟩⟩

theorem isIgnored_of_token? (h : l.token? p = none) : l.isIgnored = true := by
  obtain ⟨terminal, text⟩ := l
  unfold token? at h
  cases terminal with
  | token kind =>
      cases kind with
      | name => dsimp only at h; split at h <;> cases h
      | _ => cases h
  | _ => rfl

theorem not_isIgnored_of_token? {t : Token} (h : l.token? p = some t) : l.isIgnored = false := by
  obtain ⟨terminal, text⟩ := l
  cases terminal with
  | token kind => rfl
  | _ => cases h

end Lexeme

/-! ## Words of what is spelled out -/

theorem wordsOf_lpar (rest : List Char) : wordsOf ('(' :: rest) = wordsBefore [⟨.lpar, "("⟩] rest :=
  @wordsOf_append (.token .lpar) ['('] rest (by decide) (by simp) rfl rfl

theorem wordsOf_rpar (rest : List Char) : wordsOf (')' :: rest) = wordsBefore [⟨.rpar, ")"⟩] rest :=
  @wordsOf_append (.token .rpar) [')'] rest (by decide) (by simp) rfl rfl

section Cut

variable {source new : List Char} {c : Cut source} (hcut : nextCut? source = some c)
  (hopen : ¬ Terminal.OpensComment source)
  (hjoined : Lexeme.joined (Lexeme.ofText c.rest).1 = c.rest)
  (hlike : Lexeme.GoesOnLike (Lexeme.ofText c.rest).1 new)

include hcut hopen

/-- A token ends in front of a separator. -/
theorem wordsOf_cut_token (htoken : (Lexeme.mk c.terminal c.text).isIgnored = false) {b : Char}
    (hb : IsBreak b) (rest : List Char) :
    wordsOf (c.text ++ b :: rest) =
      wordsBefore (Lexeme.mk c.terminal c.text).word?.toList (b :: rest) := by
  obtain ⟨horder, hlength, hbefore⟩ := matchLength_of_nextCut hcut
  have hsame := @wordsOf_cut_break c.terminal c.text [] c.rest rest b horder c.text_ne
  rw [List.nil_append, List.nil_append, c.text_append] at hsame
  refine hsame ?_ hlength hbefore hopen ?_ hb
  · intro h
    rw [h] at htoken
    cases htoken
  · intro h
    rw [h] at htoken
    cases htoken

include hjoined hlike

/-- The words of a token that is spelled out. -/
theorem wordsOf_spelledAs {p : Position} {t : Token}
    (ht : (Lexeme.mk c.terminal c.text).token? p = some t) (s : Option Shorthand) :
    wordsOf ((Lexeme.mk c.terminal c.text).spelledAs s ++ new) = wordsBefore (t.spellOut s) new := by
  have htoken := Lexeme.not_isIgnored_of_token? ht
  have hword : (Lexeme.mk c.terminal c.text).word?.toList = [t.word] := by
    rw [← Lexeme.word?_of_token? _ p, ht]
    rfl
  have hclose := wordsOf_cut_goesOnLike hcut hopen hjoined hlike
  rw [hword] at hclose
  cases s with
  | none => exact hclose
  | some s =>
      cases s with
      | field =>
          have hcolon : (TokenKind.colon, ':') ∈ writtenMarks := by decide
          calc wordsOf (c.text ++ ':' :: ' ' :: c.text ++ new)
            _ = wordsOf (c.text ++ ':' :: (' ' :: (c.text ++ new))) := by simp
            _ = wordsBefore [t.word] (':' :: (' ' :: (c.text ++ new))) := by
                rw [wordsOf_cut_token hcut hopen htoken (isBreak_of_mem (by simp)), hword]
            _ = wordsBefore [t.word, ⟨.colon, ":"⟩, t.word] new := by
                rw [wordsBefore, wordsOf_mark hcolon, wordsBefore, wordsOf_blank rfl, hclose]
                rfl
      | parameter =>
          calc wordsOf ('(' :: (c.text ++ [')']) ++ new)
            _ = wordsOf ('(' :: (c.text ++ ')' :: new)) := by simp
            _ = wordsBefore [⟨.lpar, "("⟩] (c.text ++ ')' :: new) := wordsOf_lpar _
            _ = wordsBefore [⟨.lpar, "("⟩, t.word, ⟨.rpar, ")"⟩] new := by
                rw [wordsBefore, wordsOf_cut_token hcut hopen htoken (isBreak_of_mem (by simp)), hword,
                  wordsBefore, wordsOf_rpar]
                rfl

end Cut

/-- The words of a text that is spelled out. -/
theorem wordsOf_spellOut (marks : Position → Option Shorthand) (p : Position) (source : List Char)
    (hleft : (tokensFrom p source).2 = []) (hcalm : Calm (tokensFrom p source).1) :
    wordsOf (Lexeme.spellOut marks p (Lexeme.ofText source).1) =
      ((tokensFrom p source).1.flatMap fun t => t.spellOut (marks t.pos), []) := by
  cases hcut : nextCut? source with
  | none =>
      have hsource : (tokensFrom p source).2 = source := by
        unfold tokensFrom
        rw [Lexeme.ofText_none hcut]
      obtain rfl : source = [] := hsource.symm.trans hleft
      rw [Lexeme.ofText_none hcut, tokensFrom_nil]
      exact wordsOf_nil
  | some c =>
      have hopen : ¬ Terminal.OpensComment source := fun h => not_calm_of_opensComment p h hcalm
      rw [tokensFrom_cut p hcut] at hleft hcalm ⊢
      rw [Lexeme.ofText_some hcut]
      have hjoined : Lexeme.joined (Lexeme.ofText c.rest).1 = c.rest := by
        have hall := Lexeme.joined_ofText c.rest
        have hnone : (Lexeme.ofText c.rest).2 = [] := hleft
        rwa [hnone, List.append_nil] at hall
      have hrest := wordsOf_spellOut marks (p.after c.text) c.rest hleft hcalm.right
      have hlike : Lexeme.GoesOnLike (Lexeme.ofText c.rest).1
          (Lexeme.spellOut marks (p.after c.text) (Lexeme.ofText c.rest).1) :=
        Lexeme.goesOnLike_spellOut fun l hl => (Lexeme.allTake_ofText c.rest l hl).1
      rw [Lexeme.spellOut]
      cases htoken : (Lexeme.mk c.terminal c.text).token? p with
      | none =>
          have hword : (Lexeme.mk c.terminal c.text).word? = none := by
            rw [← Lexeme.word?_of_token? _ p, htoken]
            rfl
          have hmark : (Lexeme.mk c.terminal c.text).shorthand? marks p = none :=
            if_pos (Lexeme.isIgnored_of_token? htoken)
          rw [hmark, Lexeme.spelledAs, wordsOf_cut_goesOnLike hcut hopen hjoined hlike, hword,
            wordsBefore, hrest]
          rfl
      | some t =>
          have hmark : (Lexeme.mk c.terminal c.text).shorthand? marks p = marks t.pos := by
            rw [Lexeme.pos_of_token? htoken]
            exact if_neg (by simp [Lexeme.not_isIgnored_of_token? htoken])
          rw [hmark, wordsOf_spelledAs hcut hopen hjoined hlike htoken, wordsBefore, hrest]
          rfl
termination_by source.length
decreasing_by exact c.rest_lt

end VariantScript.Syntax
