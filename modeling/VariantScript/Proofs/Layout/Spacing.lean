import VariantScript.Proofs.Joining.Statements
import VariantScript.Proofs.Layout.Gaps

/-!
# Programs with other gaps

Gaps can be put in front of any tokens of a program, and it remains the same program up to places.
The lexemes of the text are gone through one by one.  What stands behind a lexeme goes on as before
up to the first gap that was put in, and a lexeme ends where it did in front of both.  Only a block
comment that is left open would reach further; a program has none, as the mark that opens it would be
two operators side by side.
-/

namespace VariantScript.Syntax

namespace Lexeme

/-- The text of lexemes with gaps in front of some of the tokens among them. -/
inductive Spaced : List Lexeme → List Char → Prop where
  | nil : Spaced [] []
  | close {l : Lexeme} {ls : List Lexeme} {text : List Char} (h : Spaced ls text) :
      Spaced (l :: ls) (l.text ++ text)
  | apart {l : Lexeme} {ls : List Lexeme} {gap text : List Char} (hl : l.isIgnored = false)
      (hgap : IsGap gap) (h : Spaced ls text) : Spaced (l :: ls) (gap ++ (l.text ++ text))

/-- A text that goes on like lexemes up to their end or to a separator; what stands at the separator
without it is a token, if it is the first lexeme. -/
def GoesOnLike (ls : List Lexeme) (text : List Char) : Prop :=
  text = joined ls ∨
    ∃ same behind b rest, joined ls = same ++ behind ∧ text = same ++ b :: rest ∧
      IsBreak b ∧ (same = [] → ∃ l, ls.head? = some l ∧ l.isIgnored = false)

variable {l : Lexeme} {ls : List Lexeme} {text : List Char}

theorem GoesOnLike.cons (h : GoesOnLike ls text) (hl : l.text ≠ []) :
    GoesOnLike (l :: ls) (l.text ++ text) := by
  rcases h with rfl | ⟨same, behind, b, rest, hjoined, rfl, hb, -⟩
  · exact .inl rfl
  · refine .inr ⟨l.text ++ same, behind, b, rest, ?_, by simp, hb, fun hnil => ?_⟩
    · rw [joined_cons, hjoined, List.append_assoc]
    · exact absurd (List.append_eq_nil_iff.1 hnil).1 hl

namespace Spaced

/-- No gap at all. -/
theorem joined (ls : List Lexeme) : Spaced ls (joined ls) := by
  induction ls with
  | nil => exact .nil
  | cons l ls ih => exact .close ih

/-- A gap in front of one token. -/
theorem single {before behind : List Lexeme} {gap : List Char} (hl : l.isIgnored = false)
    (hgap : IsGap gap) :
    Spaced (before ++ l :: behind)
      (Lexeme.joined before ++ gap ++ Lexeme.joined (l :: behind)) := by
  induction before with
  | nil => exact .apart hl hgap (joined behind)
  | cons b before ih =>
      have hclose := ih.close (l := b)
      simp only [Lexeme.joined_cons, List.cons_append, List.append_assoc] at hclose ⊢
      exact hclose

theorem goesOnLike (h : Spaced ls text) (hls : ∀ l ∈ ls, l.text ≠ []) : GoesOnLike ls text := by
  induction h with
  | nil => exact .inl rfl
  | close h ih => exact (ih fun l hl => hls l (.tail _ hl)).cons (hls _ (.head _))
  | @apart l ls gap text hl hgap h ih =>
      rcases hgap.eq_nil_or_cons with rfl | ⟨b, bs, rfl, hb⟩
      · exact (ih fun l hl => hls l (.tail _ hl)).cons (hls _ (.head _))
      · have hbreak := (isSeparator_of_isBlank hb).isBreak
        exact .inr ⟨[], _, b, _, rfl, rfl, hbreak, fun _ => ⟨l, rfl, hl⟩⟩

end Spaced

end Lexeme

/-! ## One lexeme -/

/-- Behind a comment that ends with its line stands the end of the line. -/
theorem rest_of_lineComment {cs : List Char} {c : Cut cs} (hcut : nextCut? cs = some c)
    (hterminal : c.terminal = .lineComment) : c.rest = [] ∨ ∃ ds, c.rest = '\n' :: ds := by
  obtain ⟨-, hlength, -⟩ := matchLength_of_nextCut hcut
  have hpos := List.length_pos_iff.2 c.text_ne
  rw [hterminal, Terminal.matchLength] at hlength
  obtain ⟨ds, hds⟩ := Terminal.prefix_of_lineComment (by rw [hlength]; omega)
  have hrest : c.rest = cs.drop c.text.length := by
    have hdrop := congrArg (List.drop c.text.length) c.text_append
    rwa [List.drop_left] at hdrop
  have hline : c.rest = ds.dropWhile (· ≠ '\n') := by
    rw [hrest, ← hlength, ← hds, ← Regex.drop_run]
    simp [Terminal.lineCommentLength, Regex.run, Nat.add_comm 2]
  cases hall : ds.dropWhile (· ≠ '\n') with
  | nil => exact .inl (hline.trans hall)
  | cons d es =>
      have hd := List.head?_dropWhile_not (· ≠ '\n') ds
      rw [hall] at hd
      obtain rfl : d = '\n' := by simpa using hd
      exact .inr ⟨es, hline.trans hall⟩

/-- A lexeme, no blanks, ends where it did if the text goes on as before up to a separator. -/
theorem wordsOf_goesOnLike {t : Terminal} {text new : List Char} {ls : List Lexeme}
    (horder : t ∈ Terminal.order) (hne : text ≠ []) (hblanks : t ≠ .blanks)
    (hlength : t.matchLength (text ++ Lexeme.joined ls) = text.length)
    (hbefore : ∀ u ∈ Terminal.order.takeWhile (· ≠ t),
      u.matchLength (text ++ Lexeme.joined ls) = 0)
    (hopen : ¬ Terminal.OpensComment (text ++ Lexeme.joined ls))
    (hline : t = .lineComment → (∀ l ∈ ls.head?, l.isIgnored = true) ∧
      ∀ d ∈ (Lexeme.joined ls).head?, d = '\n')
    (h : Lexeme.GoesOnLike ls new) :
    wordsOf (text ++ new) = wordsBefore (Lexeme.mk t text).word?.toList new := by
  rcases h with rfl | ⟨same, behind, b, rest, hjoined, rfl, hb, hhead⟩
  · exact wordsOf_append horder hne
      (List.all_eq_true.2 fun u hu => decide_eq_true (hbefore u hu)) hlength
  rw [hjoined] at hlength hbefore hopen hline
  refine wordsOf_cut_break horder hne hblanks hlength hbefore hopen (fun ht => ?_)
    hb
  obtain ⟨hignored, hfeed⟩ := hline ht
  cases same with
  | nil =>
      obtain ⟨l, hl, htoken⟩ := hhead rfl
      rw [hignored l hl] at htoken
      cases htoken
  | cons d same =>
      rw [hfeed d rfl]
      exact .head _

/-- Blanks are left out. -/
theorem ignored_of_blank {b : Char} (hb : Terminal.isBlank b = true) (cs : List Char) :
    ∀ l ∈ (Lexeme.ofText (b :: cs)).1.head?, l.isIgnored = true := by
  obtain ⟨cut, hcut, hterminal, -, -⟩ := nextCut_blanks hb cs
  rw [Lexeme.ofText_some hcut, hterminal]
  intro l hl
  obtain rfl : _ = l := Option.some.inj hl
  rfl

/-! ## All lexemes -/

/-- The first lexeme of a text ends where it did if what follows it goes on like what followed it. -/
theorem wordsOf_cut_goesOnLike {source : List Char} {c : Cut source} (hcut : nextCut? source = some c)
    (hopen : ¬ Terminal.OpensComment source) {new : List Char}
    (hjoined : Lexeme.joined (Lexeme.ofText c.rest).1 = c.rest)
    (hlike : Lexeme.GoesOnLike (Lexeme.ofText c.rest).1 new) :
    wordsOf (c.text ++ new) = wordsBefore (Lexeme.mk c.terminal c.text).word?.toList new := by
  by_cases hblanks : c.terminal = .blanks
  · rw [wordsOf_blanks (isBlank_of_blanks hcut hblanks), hblanks]
    rfl
  · obtain ⟨horder, hlength, hbefore⟩ := matchLength_of_nextCut hcut
    refine wordsOf_goesOnLike horder c.text_ne hblanks ?_ ?_ ?_ (fun hterminal => ?_) hlike
    · rwa [hjoined, c.text_append]
    · rwa [hjoined, c.text_append]
    · rwa [hjoined, c.text_append]
    · rw [hjoined]
      rcases rest_of_lineComment hcut hterminal with hnil | ⟨ds, hfeed⟩
      · rw [hnil]
        exact ⟨by simp [Lexeme.ofText_none (rfl : nextCut? [] = none)], by simp⟩
      · rw [hfeed]
        exact ⟨ignored_of_blank rfl ds, by simp⟩

/-- Gaps in front of tokens leave a text the words that it has. -/
theorem wordsOf_spaced (p : Position) (source : List Char) {text : List Char}
    (hleft : (tokensFrom p source).2 = []) (hcalm : Calm (tokensFrom p source).1)
    (h : Lexeme.Spaced (Lexeme.ofText source).1 text) : wordsOf text = wordsOf source := by
  cases hcut : nextCut? source with
  | none =>
      rw [Lexeme.ofText_none hcut] at h
      have hsource : (tokensFrom p source).2 = source := by
        unfold tokensFrom
        rw [Lexeme.ofText_none hcut]
      obtain rfl : source = [] := hsource.symm.trans hleft
      cases h
      rfl
  | some c =>
      have hopen : ¬ Terminal.OpensComment source := fun h => not_calm_of_opensComment p h hcalm
      rw [tokensFrom_cut p hcut] at hleft hcalm
      rw [Lexeme.ofText_some hcut] at h
      have hjoined : Lexeme.joined (Lexeme.ofText c.rest).1 = c.rest := by
        have hall := Lexeme.joined_ofText c.rest
        have hnone : (Lexeme.ofText c.rest).2 = [] := hleft
        rwa [hnone, List.append_nil] at hall
      have hclose (new : List Char) (hnew : Lexeme.Spaced (Lexeme.ofText c.rest).1 new) :
          wordsOf (c.text ++ new) = wordsOf source := by
        have hrest := wordsOf_spaced (p.after c.text) c.rest hleft hcalm.right hnew
        have hlike := hnew.goesOnLike fun l hl => (Lexeme.allTake_ofText c.rest l hl).1
        rw [wordsOf_cut_goesOnLike hcut hopen hjoined hlike, wordsOf_cut hcut, wordsBefore,
          wordsBefore, hrest]
      cases h with
      | close h => exact hclose _ h
      | apart _ hgap h => rw [wordsOf_gap hgap, hclose _ h]
termination_by source.length
decreasing_by exact c.rest_lt

/-! ## Programs -/

/-- Gaps in front of any of the tokens of a program leave the same program up to places. -/
theorem gaps_keep_program {source text : List Char} {t : Term}
    (hread : Program.read source = .ok t) (h : Lexeme.Spaced (Lexeme.ofText source).1 text) :
    ∃ u, Program.read text = .ok u ∧ u.unplaced = t.unplaced := by
  obtain ⟨hleft, hprogram⟩ := Program.tokens_of_read hread
  have hproduces := Phrase.produces_of_program (genuine_tokensOf source) hprogram
  have hwords := wordsOf_spaced .start source hleft (Grammar.settled_of_produces hproduces).calm h
  rw [← wordsOf_tokensOf, ← wordsOf_tokensOf] at hwords
  obtain ⟨hsame, hend⟩ := Prod.mk.inj hwords
  obtain ⟨body, hbody, rfl⟩ := Phrase.statements_of_program hprogram
  exact Program.read_alike (Token.map_unplaced_of_word hsame) (hend.trans hleft) hbody

/-- A comment in front of a division leaves it a division. -/
theorem gaps_keep_program_division :
    ∃ t u, Program.read ['8', '/', '2'] = .ok t ∧
      Program.read ['8', ' ', '/', '*', '*', '*', '/', ' ', '/', '2'] = .ok u ∧
        u.unplaced = t.unplaced := by
  have hlexemes : (Lexeme.ofText ['8', '/', '2']).1 =
      [⟨.token .number, ['8']⟩] ++ ⟨.token .mulOp, ['/']⟩ :: [⟨.token .number, ['2']⟩] := by
    decide +kernel
  have hspaced := @Lexeme.Spaced.single ⟨.token .mulOp, ['/']⟩ [⟨.token .number, ['8']⟩]
    [⟨.token .number, ['2']⟩] _ rfl (@IsGap.blockComment ['*'] (by decide))
  rw [← hlexemes] at hspaced
  obtain ⟨t, ht⟩ := Program.exists_of_isOk
    (by decide +kernel : (Program.read ['8', '/', '2']).isOk = true)
  obtain ⟨u, hu, hsame⟩ := gaps_keep_program ht hspaced
  exact ⟨t, u, ht, hu, hsame⟩

end VariantScript.Syntax
