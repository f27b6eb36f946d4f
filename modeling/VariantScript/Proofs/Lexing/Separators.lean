import VariantScript.Proofs.Lexing.Following
import VariantScript.Proofs.Serialization.Words

/-!
# Separators

Blanks and quotes are in no token but strings, so they separate what stands in front of them from what
follows.  So does a mark that is in no other token.  Strings and comments end by themselves: a lexeme that ends within a text still ends there if
the text goes on with a separator.  Only a block comment that is left open, a comment that ends with
its line and blanks could go on.
-/

namespace VariantScript.Syntax

/-! ## Characters that separate tokens -/

/-- Whether a character is in no token but perhaps a string. -/
def IsSeparator (b : Char) : Prop :=
  ∀ kind, kind ≠ .string → (Terminal.token kind).regex.avoids b = true

theorem isSeparator_of_isBlank {b : Char} (hb : Terminal.isBlank b = true) : IsSeparator b := by
  intro kind hkind
  have hall : [' ', '\t', '\x0c', '\r', '\n'].all
      (fun b => (Terminal.token kind).regex.avoids b) = true := by
    cases kind with
    | string => exact absurd rfl hkind
    | _ => rfl
  refine List.all_eq_true.1 hall b ?_
  simp only [Terminal.isBlank, Bool.or_eq_true, decide_eq_true_eq] at hb
  simpa [or_assoc] using hb

theorem isSeparator_quote : IsSeparator '"' := by
  intro kind hkind
  cases kind with
  | string => exact absurd rfl hkind
  | _ => rfl

/-- Whether a character is in no token but perhaps a string, or is one itself. -/
def IsBreak (b : Char) : Prop :=
  ∀ kind, kind ≠ .string →
    (Terminal.token kind).regex.avoids b = true ∨ Terminal.marks kind = [[b]]

theorem IsSeparator.isBreak {b : Char} (h : IsSeparator b) : IsBreak b :=
  fun kind hkind => .inl (h kind hkind)

/-- The marks that no other token has in it. -/
theorem isBreak_of_mem {b : Char} (hb : b ∈ ['(', ')', ':']) : IsBreak b := by
  intro kind hkind
  simp only [List.mem_cons, List.not_mem_nil, or_false] at hb
  rcases hb with rfl | rfl | rfl <;> cases kind with
  | string => exact absurd rfl hkind
  | lpar | rpar | colon => first | exact .inr rfl | exact .inl rfl
  | _ => exact .inl rfl

namespace IsBreak

variable {b : Char}

/-- The marks of comments are operators, which there are more of. -/
theorem ne_slash (h : IsBreak b) : b ≠ '/' := by
  rintro rfl
  rcases h .mulOp (by decide) with h | h <;> cases h

theorem ne_star (h : IsBreak b) : b ≠ '*' := by
  rintro rfl
  rcases h .mulOp (by decide) with h | h <;> cases h

end IsBreak

/-! ## Strings and comments that end -/

namespace Terminal

theorem closingDistance_append {escaped : Bool} {cs : List Char} {n : Nat}
    (h : closingDistance escaped cs = some n) (rest : List Char) :
    closingDistance escaped (cs ++ rest) = some n := by
  induction cs generalizing escaped n with
  | nil => cases h
  | cons c cs ih =>
      rw [List.cons_append]
      rw [closingDistance] at h ⊢
      split at h
      · cases h
      · rename_i hline
        rw [if_neg hline]
        split at h
        · rename_i hquote
          rw [if_pos hquote]
          exact h
        · rename_i hquote
          obtain ⟨m, hm, rfl⟩ := Option.map_eq_some_iff.1 h
          rw [if_neg hquote, ih hm]
          rfl

/-- A string that ends needs nothing behind it. -/
theorem stringLength_append {cs : List Char} (h : stringLength cs ≠ 0) (rest : List Char) :
    stringLength (cs ++ rest) = stringLength cs := by
  unfold stringLength at h
  split at h
  · rename_i ds
    cases hend : closingDistance false ds with
    | none => exact absurd (by rw [hend]; rfl) h
    | some n => simp only [List.cons_append, stringLength, hend, closingDistance_append hend]
  · exact absurd rfl h

theorem commentEndDistance_cons {c : Char} {cs : List Char}
    (h : ¬ (c = '*' ∧ cs.head? = some '/')) :
    commentEndDistance (c :: cs) = (commentEndDistance cs).map (· + 1) := by
  rw [commentEndDistance]
  rintro rest rfl rfl
  exact h ⟨rfl, rfl⟩

theorem commentEndDistance_append {cs : List Char} {n : Nat} (h : commentEndDistance cs = some n)
    (rest : List Char) : commentEndDistance (cs ++ rest) = some n := by
  induction cs generalizing n with
  | nil => cases h
  | cons c cs ih =>
      by_cases hend : c = '*' ∧ cs.head? = some '/'
      · obtain ⟨rfl, hslash⟩ := hend
        cases cs with
        | nil => cases hslash
        | cons d cs =>
            cases hslash
            simpa [commentEndDistance] using h
      · rw [commentEndDistance_cons hend] at h
        obtain ⟨m, hm, rfl⟩ := Option.map_eq_some_iff.1 h
        have hhead : (cs ++ rest).head? = cs.head? := by
          cases cs with
          | nil => cases hm
          | cons d cs => rfl
        rw [List.cons_append, commentEndDistance_cons (by rwa [hhead]), ih hm, Option.map_some]

/-- A block comment that is open at the end of a text. -/
def OpensComment (cs : List Char) : Prop :=
  ∃ ds, cs = '/' :: '*' :: ds ∧ commentEndDistance ds = none

/-- A block comment that ends needs nothing behind it. -/
theorem blockCommentLength_append {cs : List Char} (h : blockCommentLength cs ≠ 0)
    (rest : List Char) : blockCommentLength (cs ++ rest) = blockCommentLength cs := by
  unfold blockCommentLength at h
  split at h
  · rename_i ds
    cases hend : commentEndDistance ds with
    | none => exact absurd (by rw [hend]; rfl) h
    | some n =>
        simp only [List.cons_append, blockCommentLength, hend, commentEndDistance_append hend]
  · exact absurd rfl h

/-- Two characters that are not at the head of a text are not if another one follows a part of it. -/
theorem prefix_of_prefix_append {x y b : Char} {cs rest : List Char} (hcs : cs ≠ []) (hb : b ≠ y)
    (h : [x, y] <+: cs ++ b :: rest) (ds : List Char) : [x, y] <+: cs ++ ds := by
  match cs with
  | [] => exact absurd rfl hcs
  | [c] => simp [List.cons_prefix_cons, Ne.symm hb] at h
  | c :: d :: cs =>
      simp only [List.cons_append, List.cons_prefix_cons] at h ⊢
      exact ⟨h.1, h.2.1, List.nil_prefix⟩

/-- A block comment that ends within a text ends there whatever follows, and where a text opens none,
none is opened either if it goes on in another way. -/
theorem blockCommentLength_of_le {cs ds : List Char} (hcs : cs ≠ [])
    (hopen : ¬ OpensComment (cs ++ ds)) (hle : blockCommentLength (cs ++ ds) ≤ cs.length) {b : Char}
    (hb : b ≠ '*') (rest : List Char) :
    blockCommentLength (cs ++ b :: rest) = blockCommentLength (cs ++ ds) := by
  have hwithin : blockCommentLength cs = blockCommentLength (cs ++ ds) :=
    @matchLength_of_le .blockComment cs ds hle
  by_cases hzero : blockCommentLength (cs ++ ds) = 0
  · rw [hzero]
    by_contra hne
    obtain ⟨es, hes⟩ := prefix_of_prefix_append hcs hb (prefix_of_blockComment hne) ds
    refine hopen ⟨es, hes.symm, ?_⟩
    rw [← hes, List.cons_append, List.cons_append, List.nil_append, blockCommentLength] at hzero
    cases hend : commentEndDistance es with
    | none => rfl
    | some n =>
        rw [hend] at hzero
        cases hzero
  · rw [← hwithin] at hzero ⊢
    exact blockCommentLength_append hzero _

/-! ## What a terminal matches in front of a separator -/

section

variable {cs ds rest : List Char} {b : Char}

/-- Whether a mark of one character stands at the head of a text is told by the first character. -/
theorem matchLength_of_single {kind : TokenKind} (h : marks kind = [[b]]) (hcs : cs ≠ [])
    (ds rest : List Char) :
    (token kind).matchLength (cs ++ ds) = (token kind).matchLength (cs ++ rest) := by
  have hmarks (xs : List Char) : (token kind).matchLength xs = markLength [[b]] xs := by
    rw [← h]
    cases kind with
    | number | name | string | keyword => cases h
    | _ => rfl
  obtain ⟨c, cs, rfl⟩ := List.exists_cons_of_ne_nil hcs
  simp [hmarks, markLength, List.find?, List.isPrefixOf]

/-- A token of another kind than a string is matched in front of a separator as it is within the text
that stands there. -/
theorem matchLength_token_break {kind : TokenKind} (hkind : kind ≠ .string) (hcs : cs ≠ [])
    (hb : IsBreak b) (hle : (token kind).matchLength (cs ++ ds) ≤ cs.length) :
    (token kind).matchLength (cs ++ b :: rest) = (token kind).matchLength (cs ++ ds) := by
  rcases hb kind hkind with havoids | hmark
  · exact (matchLength_of_avoids havoids cs rest).trans (matchLength_of_le hle)
  · exact matchLength_of_single hmark hcs _ _

/-- What does not match at the head of a text does not match there either if a separator follows a
part of the text; only a quote could be closed behind it. -/
theorem matchLength_break_of_zero {t : Terminal} (hcs : cs ≠ [])
    (hquote : t = .token .string → cs.head? ≠ some '"') (hopen : ¬ OpensComment (cs ++ ds))
    (hb : IsBreak b) (hzero : t.matchLength (cs ++ ds) = 0) :
    t.matchLength (cs ++ b :: rest) = 0 := by
  have hle : t.matchLength (cs ++ ds) ≤ cs.length := by
    rw [hzero]
    exact Nat.zero_le _
  obtain ⟨c, cs', rfl⟩ := List.exists_cons_of_ne_nil hcs
  cases t with
  | token kind =>
      by_cases hkind : kind = .string
      · subst hkind
        by_contra hne
        exact hquote rfl (congrArg some (first_of_string hne))
      · exact (matchLength_token_break hkind hcs hb hle).trans hzero
  | blanks =>
      have hc : ¬ isBlank c = true := by
        intro hc
        rw [List.cons_append, matchLength, List.takeWhile_cons_of_pos hc] at hzero
        cases hzero
      rw [List.cons_append, matchLength, List.takeWhile_cons_of_neg hc]
      rfl
  | lineComment =>
      by_contra hne
      obtain ⟨es, hes⟩ := prefix_of_prefix_append hcs hb.ne_slash (prefix_of_lineComment hne) ds
      rw [← hes] at hzero
      simp [matchLength, lineCommentLength] at hzero
  | blockComment => exact (blockCommentLength_of_le hcs hopen hle hb.ne_star rest).trans hzero

/-- What ends within a text still ends there if a separator follows; a comment that ends with its line
needs the end of the line, and blanks could go on. -/
theorem matchLength_break_of_pos {t : Terminal} (hblanks : t ≠ .blanks)
    (hline : t = .lineComment → '\n' ∈ cs) (hb : IsBreak b)
    (hpos : t.matchLength (cs ++ ds) ≠ 0) (hle : t.matchLength (cs ++ ds) ≤ cs.length) :
    t.matchLength (cs ++ b :: rest) = t.matchLength (cs ++ ds) := by
  have hwithin := matchLength_of_le hle
  cases t with
  | token kind =>
      by_cases hkind : kind = .string
      · subst hkind
        rw [← hwithin] at hpos ⊢
        exact stringLength_append hpos _
      · have hcs : cs ≠ [] := by
          rintro rfl
          exact hpos (Nat.le_zero.1 hle)
        exact matchLength_token_break hkind hcs hb hle
  | blanks => exact absurd rfl hblanks
  | lineComment =>
      obtain ⟨before, behind, rfl⟩ := List.append_of_mem (hline rfl)
      rw [List.append_assoc, List.append_assoc, List.cons_append, List.cons_append,
        matchLength_of_avoids rfl, matchLength_of_avoids rfl]
  | blockComment =>
      rw [← hwithin] at hpos ⊢
      exact blockCommentLength_append hpos _

end

/-- Only a string starts with a quote. -/
theorem eq_string_of_quote {t : Terminal} {cs : List Char}
    (h : t.matchLength ('"' :: cs) ≠ 0) : t = .token .string := by
  cases t with
  | token kind =>
      cases kind with
      | string => rfl
      | _ => exact absurd rfl h
  | _ => exact absurd rfl h

end Terminal

/-! ## Words in front of a separator -/

/-- A lexeme, no blanks, ends where it did if the text goes on as before up to a separator. -/
theorem wordsOf_cut_break {t : Terminal} {text same behind rest : List Char} {b : Char}
    (horder : t ∈ Terminal.order) (hne : text ≠ []) (hblanks : t ≠ .blanks)
    (hlength : t.matchLength (text ++ (same ++ behind)) = text.length)
    (hbefore : ∀ u ∈ Terminal.order.takeWhile (· ≠ t),
      u.matchLength (text ++ (same ++ behind)) = 0)
    (hopen : ¬ Terminal.OpensComment (text ++ (same ++ behind)))
    (hline : t = .lineComment → '\n' ∈ same) (hb : IsBreak b) :
    wordsOf (text ++ (same ++ b :: rest)) =
      wordsBefore (Lexeme.mk t text).word?.toList (same ++ b :: rest) := by
  rw [← List.append_assoc] at hlength hbefore hopen
  have hfilled : text ++ same ≠ [] := fun hnil => hne (List.append_eq_nil_iff.1 hnil).1
  refine wordsOf_append horder hne ?_ ?_
  · rw [List.all_eq_true, ← List.append_assoc]
    intro u hu
    refine decide_eq_true
      (Terminal.matchLength_break_of_zero hfilled ?_ hopen hb (hbefore u hu))
    -- What starts with a quote is a string, which is tried before.
    rintro rfl hquote
    obtain ⟨cs, hcs⟩ := List.head?_eq_some_iff.1 hquote
    have hstring : t.matchLength ('"' :: (cs ++ behind)) ≠ 0 := by
      rw [← List.cons_append, ← hcs, hlength]
      exact mt List.length_eq_zero_iff.1 hne
    obtain rfl := Terminal.eq_string_of_quote hstring
    revert hu
    decide
  · rw [← List.append_assoc,
      Terminal.matchLength_break_of_pos hblanks
        (fun ht => List.mem_append_right _ (hline ht)) hb ?_ ?_, hlength]
    · rw [hlength]
      exact mt List.length_eq_zero_iff.1 hne
    · rw [hlength, List.length_append]
      exact Nat.le_add_right _ _

/-- A text without slashes has the words that it has if a quote follows. -/
theorem wordsOf_quote {cs : List Char} (hslash : '/' ∉ cs) (hleft : (wordsOf cs).2 = [])
    (rest : List Char) :
    wordsOf (cs ++ '"' :: rest) = wordsBefore (wordsOf cs).1 ('"' :: rest) := by
  cases hcut : nextCut? cs with
  | none =>
      have hcs : (wordsOf cs).2 = cs := by
        unfold wordsOf
        rw [Lexeme.ofText_none hcut]
      obtain rfl : cs = [] := hcs.symm.trans hleft
      rw [wordsOf_nil]
      rfl
  | some c =>
      obtain ⟨horder, hlength, hbefore⟩ := matchLength_of_nextCut hcut
      have hrest : '/' ∉ c.rest := fun hmem =>
        hslash (by rw [← c.text_append]; exact List.mem_append_right _ hmem)
      have htext : cs ++ '"' :: rest = c.text ++ (c.rest ++ '"' :: rest) := by
        rw [← List.append_assoc, c.text_append]
      rw [wordsOf_cut hcut] at hleft ⊢
      have ih := wordsOf_quote hrest hleft rest
      have hfirst : wordsOf (c.text ++ (c.rest ++ '"' :: rest)) =
          wordsBefore (Lexeme.mk c.terminal c.text).word?.toList (c.rest ++ '"' :: rest) := by
        by_cases hblanks : c.terminal = .blanks
        · rw [wordsOf_blanks (isBlank_of_blanks hcut hblanks), hblanks]
          rfl
        · have hsame := @wordsOf_cut_break c.terminal c.text c.rest [] rest '"' horder c.text_ne
            hblanks
          rw [List.append_nil, c.text_append] at hsame
          refine hsame hlength hbefore ?_ (fun hline => ?_) isSeparator_quote.isBreak
          · rintro ⟨ds, rfl, -⟩
            exact hslash (.head _)
          · rw [hline, Terminal.matchLength] at hlength
            have hpos := List.length_pos_iff.2 c.text_ne
            obtain ⟨ds, hds⟩ := Terminal.prefix_of_lineComment (by rw [hlength]; omega)
            exact absurd (by rw [← hds]; exact .head _) hslash
      rw [htext, hfirst, wordsBefore, ih]
      simp [wordsBefore]
termination_by cs.length
decreasing_by exact c.rest_lt
end VariantScript.Syntax
