import VariantScript.Proofs.Joining.Tokens
import VariantScript.Proofs.Lexing.Partition

/-!
# Gaps between tokens

Blanks, and comments between spaces, have no words, whatever follows.
-/

namespace VariantScript.Syntax

/-- What may be put in front of a token: blanks, or a comment between two spaces. -/
inductive IsGap : List Char → Prop where
  | blanks {bs : List Char} (hbs : ∀ b ∈ bs, Terminal.isBlank b = true) : IsGap bs
  | blockComment {inside : List Char} (hinside : ¬ ['*', '/'] <:+: inside) :
      IsGap (' ' :: '/' :: '*' :: (inside ++ ['*', '/', ' ']))
  | lineComment {inside : List Char} (hinside : '\n' ∉ inside) :
      IsGap (' ' :: '/' :: '/' :: (inside ++ ['\n', ' ']))

namespace IsGap

variable {gap : List Char}

/-- A gap that is not empty starts with a blank. -/
theorem eq_nil_or_cons (h : IsGap gap) :
    gap = [] ∨ ∃ b bs, gap = b :: bs ∧ Terminal.isBlank b = true := by
  cases h with
  | blanks hbs =>
      cases gap with
      | nil => exact .inl rfl
      | cons b bs => exact .inr ⟨b, bs, rfl, hbs b (.head _)⟩
  | blockComment hinside => exact .inr ⟨' ', _, rfl, rfl⟩
  | lineComment hinside => exact .inr ⟨' ', _, rfl, rfl⟩

end IsGap

/-! ## The words of a gap -/

/-- A comment ends at the first mark that ends one. -/
theorem commentEndDistance_append_mark {inside : List Char} (h : ¬ ['*', '/'] <:+: inside)
    (rest : List Char) :
    Terminal.commentEndDistance (inside ++ '*' :: '/' :: rest) = some (inside.length + 2) := by
  induction inside with
  | nil => rfl
  | cons c cs ih =>
      have hcs : ¬ ['*', '/'] <:+: cs := fun hinside =>
        h (hinside.trans (List.suffix_cons c cs).isInfix)
      have hhead : ¬ (c = '*' ∧ (cs ++ '*' :: '/' :: rest).head? = some '/') := by
        rintro ⟨rfl, hslash⟩
        cases cs with
        | nil => cases hslash
        | cons d cs =>
            obtain rfl : d = '/' := by simpa using hslash
            exact h ⟨[], cs, rfl⟩
      rw [List.cons_append, Terminal.commentEndDistance_cons hhead, ih hcs]
      rfl

theorem wordsOf_blockComment {inside : List Char} (h : ¬ ['*', '/'] <:+: inside)
    (rest : List Char) :
    wordsOf ('/' :: '*' :: (inside ++ '*' :: '/' :: rest)) = wordsOf rest := by
  have hlength : Terminal.blockCommentLength ('/' :: '*' :: (inside ++ '*' :: '/' :: rest)) =
      inside.length + 4 := by
    rw [Terminal.blockCommentLength, commentEndDistance_append_mark h]
    rfl
  have hcut := @wordsOf_append .blockComment ('/' :: '*' :: (inside ++ ['*', '/'])) rest
    (by decide) (by simp)
  simp only [List.cons_append, List.append_assoc, List.nil_append] at hcut
  rw [hcut rfl (by rw [Terminal.matchLength, hlength]; simp)]
  rfl

theorem wordsOf_lineComment {inside : List Char} (h : '\n' ∉ inside) (rest : List Char) :
    wordsOf ('/' :: '/' :: (inside ++ '\n' :: rest)) = wordsOf ('\n' :: rest) := by
  have hline : (inside ++ '\n' :: rest).takeWhile (· ≠ '\n') = inside := by
    rw [List.takeWhile_append_of_pos]
    · simp
    · intro c hc
      simpa using ne_of_mem_of_not_mem hc h
  have hlength : Terminal.lineCommentLength ('/' :: '/' :: (inside ++ '\n' :: rest)) =
      inside.length + 2 := by
    rw [Terminal.lineCommentLength, hline, Nat.add_comm]
  have hcut := @wordsOf_append .lineComment ('/' :: '/' :: inside) ('\n' :: rest)
    (by decide) (by simp)
  simp only [List.cons_append] at hcut
  rw [hcut rfl (by rw [Terminal.matchLength, hlength]; simp)]
  rfl

/-- A gap has no words. -/
theorem wordsOf_gap {gap : List Char} (h : IsGap gap) (rest : List Char) :
    wordsOf (gap ++ rest) = wordsOf rest := by
  cases h with
  | blanks hbs => exact wordsOf_blanks hbs rest
  | @blockComment inside hinside =>
      calc wordsOf (' ' :: '/' :: '*' :: (inside ++ ['*', '/', ' ']) ++ rest)
        _ = wordsOf ('/' :: '*' :: (inside ++ '*' :: '/' :: ' ' :: rest)) := by
            rw [List.cons_append, wordsOf_blank rfl]
            simp
        _ = wordsOf (' ' :: rest) := wordsOf_blockComment hinside _
        _ = wordsOf rest := wordsOf_blank rfl rest
  | @lineComment inside hinside =>
      calc wordsOf (' ' :: '/' :: '/' :: (inside ++ ['\n', ' ']) ++ rest)
        _ = wordsOf ('/' :: '/' :: (inside ++ '\n' :: ' ' :: rest)) := by
            rw [List.cons_append, wordsOf_blank rfl]
            simp
        _ = wordsOf ('\n' :: ' ' :: rest) := wordsOf_lineComment hinside _
        _ = wordsOf rest := by rw [wordsOf_blank rfl, wordsOf_blank rfl]

end VariantScript.Syntax
