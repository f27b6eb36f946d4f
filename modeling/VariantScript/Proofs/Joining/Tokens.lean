import VariantScript.Proofs.Lexing.Separators
import VariantScript.Proofs.Places.Unplaced

/-!
# Tokens of texts one below the other

The tokens of a text stay what and where they are if another text follows below it, and those of the
text below stay what they are.  The text above has to be cut into tokens to its end and may have no
two neighbouring operators of products, which could open a comment.

A new line ends whatever a text ends in, but for blanks, which take it in, and for a block comment
that is still open.  The mark that would open such a comment is read as two operators side by side.
-/

namespace VariantScript.Syntax

/-! ## What a terminal matches in front of a new line -/

namespace Terminal

theorem blanksLength_newline {cs : List Char} (hcs : ¬ ∀ c ∈ cs, isBlank c = true)
    (rest : List Char) : (cs ++ '\n' :: rest).takeWhile isBlank = cs.takeWhile isBlank := by
  induction cs with
  | nil => simp at hcs
  | cons c cs ih =>
      rw [List.cons_append, List.takeWhile_cons, List.takeWhile_cons]
      by_cases hc : isBlank c = true
      · rw [if_pos hc, if_pos hc, ih (by simpa [hc] using hcs)]
      · rw [if_neg hc, if_neg hc]

theorem blockCommentLength_newline {cs : List Char} (hcs : ¬ OpensComment cs) (rest : List Char) :
    blockCommentLength (cs ++ '\n' :: rest) = blockCommentLength cs := by
  cases cs with
  | nil => rfl
  | cons c cs =>
      have hend := @blockCommentLength_of_le (c :: cs) [] (List.cons_ne_nil c cs)
      rw [List.append_nil] at hend
      exact hend hcs (blockCommentLength_le _) (by decide) rest

/-- A terminal matches in front of a new line what it matches at the end of the text, if the text is
not all blanks and leaves no comment open. -/
theorem matchLength_newline (t : Terminal) {cs : List Char}
    (hblanks : t = .blanks → ¬ ∀ c ∈ cs, isBlank c = true)
    (hcomment : t = .blockComment → ¬ OpensComment cs) (rest : List Char) :
    t.matchLength (cs ++ '\n' :: rest) = t.matchLength cs := by
  cases t with
  | token kind => exact matchLength_of_avoids (by cases kind <;> rfl) cs rest
  | blanks => exact congrArg List.length (blanksLength_newline (hblanks rfl) rest)
  | lineComment => exact matchLength_of_avoids rfl cs rest
  | blockComment => exact blockCommentLength_newline (hcomment rfl) rest

end Terminal

/-! ## Tokens from a place on -/

/-- The tokens of a text that starts at a place, and what is left of it. -/
def tokensFrom (p : Position) (cs : List Char) : List Token × List Char :=
  (Lexeme.tokens p (Lexeme.ofText cs).1, (Lexeme.ofText cs).2)

theorem tokensOf_eq (source : List Char) : tokensOf source = tokensFrom .start source := rfl

/-- Tokens in front of those of a text. -/
def tokensBefore (ts : List Token) (r : List Token × List Char) : List Token × List Char :=
  (ts ++ r.1, r.2)

theorem tokensBefore_tokensBefore (ts us : List Token) (r : List Token × List Char) :
    tokensBefore ts (tokensBefore us r) = tokensBefore (ts ++ us) r := by
  unfold tokensBefore
  rw [List.append_assoc]

/-! ## One lexeme -/

theorem tokensFrom_cut (p : Position) {cs : List Char} {c : Cut cs} (h : nextCut? cs = some c) :
    tokensFrom p cs = tokensBefore ((Lexeme.mk c.terminal c.text).token? p).toList
      (tokensFrom (p.after c.text) c.rest) := by
  unfold tokensFrom tokensBefore
  rw [Lexeme.ofText_some h]
  dsimp only [Lexeme.tokens]
  cases (Lexeme.mk c.terminal c.text).token? p <;> rfl

theorem tokensFrom_append (p : Position) {t : Terminal} {text rest : List Char}
    (ht : t ∈ Terminal.order) (hne : text ≠ [])
    (hbefore : ((Terminal.order.takeWhile (· ≠ t)).all fun u =>
      u.matchLength (text ++ rest) = 0) = true)
    (hlength : t.matchLength (text ++ rest) = text.length) :
    tokensFrom p (text ++ rest) =
      tokensBefore ((Lexeme.mk t text).token? p).toList (tokensFrom (p.after text) rest) := by
  obtain ⟨cut, hcut, rfl, htext, hrest⟩ := nextCut_append ht hne hbefore hlength
  rw [tokensFrom_cut p hcut, htext, hrest]

/-! ## Blanks -/

/-- A run of blanks has no tokens. -/
theorem tokensFrom_dropWhile (p : Position) (cs : List Char) :
    tokensFrom p cs = tokensFrom (p.after (cs.takeWhile Terminal.isBlank))
      (cs.dropWhile Terminal.isBlank) := by
  cases cs with
  | nil => rfl
  | cons b cs =>
      by_cases hb : Terminal.isBlank b = true
      · obtain ⟨cut, hcut, hterminal, htext, hrest⟩ := nextCut_blanks hb cs
        rw [List.dropWhile_cons_of_pos hb, List.takeWhile_cons_of_pos hb, tokensFrom_cut p hcut,
          hterminal, htext, hrest]
        rfl
      · rw [List.dropWhile_cons_of_neg hb, List.takeWhile_cons_of_neg hb]
        rfl

theorem tokensFrom_blanks (p : Position) {bs : List Char}
    (hbs : ∀ b ∈ bs, Terminal.isBlank b = true) (rest : List Char) :
    tokensFrom p (bs ++ rest) = tokensFrom (p.after bs) rest := by
  rw [tokensFrom_dropWhile, List.takeWhile_append_of_pos hbs, List.dropWhile_append_of_pos hbs,
    Position.after_append, ← tokensFrom_dropWhile]

/-! ## Neighbouring operators -/

/-- Whether two tokens are not both operators of products. -/
def Token.Parted (t u : Token) : Prop :=
  ¬ (t.kind = .mulOp ∧ u.kind = .mulOp)

/-- Tokens without neighbouring operators of products. -/
def Calm (ts : List Token) : Prop :=
  ts.IsChain Token.Parted

theorem Calm.right {ts us : List Token} (h : Calm (ts ++ us)) : Calm us :=
  List.IsChain.right_of_append h

/-- The mark that opens a comment without end is read as two operators. -/
theorem not_calm_of_opensComment (p : Position) {cs : List Char} (h : Terminal.OpensComment cs) :
    ¬ Calm (tokensFrom p cs).1 := by
  obtain ⟨ds, rfl, hend⟩ := h
  have hcomment : Terminal.blockComment.matchLength ('/' :: '*' :: ds) = 0 := by
    simp [Terminal.matchLength, Terminal.blockCommentLength, hend]
  have hbefore (u : Terminal)
      (hu : u ∈ Terminal.order.takeWhile (· ≠ .token .mulOp)) :
      u.matchLength (['/'] ++ '*' :: ds) = 0 := by
    have hu : u ∈ [.token .number, .token .name, .token .string, .blockComment, .blanks,
      .lineComment, .token .eqOp, .token .relOp, .token .arrow, .token .orOr, .token .andAnd,
      .token .plus, .token .minus] := hu
    simp only [List.mem_cons, List.not_mem_nil, or_false] at hu
    rcases hu with rfl | rfl | rfl | rfl | rfl | rfl | rfl | rfl | rfl | rfl | rfl | rfl | rfl
    all_goals first | exact hcomment | rfl
  have hslash := @tokensFrom_append p (.token .mulOp) ['/'] ('*' :: ds) (by decide) (by simp)
    (List.all_eq_true.2 fun u hu => decide_eq_true (hbefore u hu)) rfl
  have hstar := @tokensFrom_append (p.after ['/']) (.token .mulOp) ['*'] ds (by decide) (by simp)
    rfl rfl
  rw [List.singleton_append] at hslash hstar
  rw [hslash, hstar]
  intro hcalm
  exact (List.isChain_cons_cons.1 hcalm).1 ⟨rfl, rfl⟩

/-! ## A text below another one -/

theorem tokensFrom_nil (p : Position) : tokensFrom p [] = ([], []) := by
  have hcut : nextCut? [] = none := by rfl
  unfold tokensFrom
  rw [Lexeme.ofText_none hcut]
  rfl

/-- A text has the same tokens if another one follows below it. -/
theorem tokensFrom_newline (p : Position) (cs rest : List Char)
    (hleft : (tokensFrom p cs).2 = []) (hcalm : Calm (tokensFrom p cs).1) :
    tokensFrom p (cs ++ '\n' :: rest) =
      tokensBefore (tokensFrom p cs).1 (tokensFrom (p.after cs) ('\n' :: rest)) := by
  cases hcut : nextCut? cs with
  | none =>
      have hcs : (tokensFrom p cs).2 = cs := by
        unfold tokensFrom
        rw [Lexeme.ofText_none hcut]
      obtain rfl : cs = [] := hcs.symm.trans hleft
      rw [tokensFrom_nil]
      rfl
  | some c =>
      by_cases hblank : ∀ b ∈ cs, Terminal.isBlank b = true
      · have hnone := tokensFrom_blanks p hblank []
        rw [List.append_nil, tokensFrom_nil] at hnone
        rw [tokensFrom_blanks p hblank, hnone]
        rfl
      · have hcomment : ¬ Terminal.OpensComment cs := fun h => not_calm_of_opensComment p h hcalm
        obtain ⟨horder, hlength, hbefore⟩ := matchLength_of_nextCut hcut
        have hsame (u : Terminal) : u.matchLength (cs ++ '\n' :: rest) = u.matchLength cs :=
          u.matchLength_newline (fun _ => hblank) (fun _ => hcomment) rest
        have htext : c.text ++ (c.rest ++ '\n' :: rest) = cs ++ '\n' :: rest := by
          rw [← List.append_assoc, c.text_append]
        have hnext := @tokensFrom_append p c.terminal c.text (c.rest ++ '\n' :: rest) horder
          c.text_ne
        rw [htext] at hnext
        rw [tokensFrom_cut p hcut] at hleft hcalm ⊢
        have hrest := tokensFrom_newline (p.after c.text) c.rest rest hleft hcalm.right
        rw [← Position.after_append, c.text_append] at hrest
        -- What is cut off is the same, and behind it stands the same by recursion.
        calc tokensFrom p (cs ++ '\n' :: rest)
          _ = tokensBefore ((Lexeme.mk c.terminal c.text).token? p).toList
                (tokensFrom (p.after c.text) (c.rest ++ '\n' :: rest)) :=
              hnext (List.all_eq_true.2 fun u hu => decide_eq_true ((hsame u).trans (hbefore u hu)))
                ((hsame _).trans hlength)
          _ = _ := by
              rw [hrest, tokensBefore_tokensBefore]
              rfl
termination_by cs.length
decreasing_by exact c.rest_lt

theorem tokensFrom_semicolon (p : Position) (rest : List Char) :
    tokensFrom p (';' :: rest) =
      tokensBefore [⟨.semicolon, ";", p⟩] (tokensFrom (p.after [';']) rest) :=
  @tokensFrom_append p (.token .semicolon) [';'] rest (by decide) (by simp) rfl rfl

/-- Tokens of the same words are alike up to places. -/
theorem Token.map_unplaced_of_word {ts us : List Token}
    (h : ts.map Token.word = us.map Token.word) :
    ts.map Token.unplaced = us.map Token.unplaced := by
  have hunplaced : Token.unplaced = (fun w : Word => ⟨w.kind, w.text, .start⟩) ∘ Token.word := rfl
  rw [hunplaced, ← List.map_map, h, List.map_map]

/-- Where a text starts does not matter for its tokens but for their places. -/
theorem unplaced_tokensFrom (p q : Position) (cs : List Char) :
    (tokensFrom p cs).1.map Token.unplaced = (tokensFrom q cs).1.map Token.unplaced :=
  Token.map_unplaced_of_word ((Lexeme.word_tokens p _).trans (Lexeme.word_tokens q _).symm)

/-- The tokens of two texts with a semicolon between them on a line of its own: those of the text
above, the semicolon, and those of the text below up to their places. -/
theorem tokensOf_joined {cs : List Char} (ds : List Char) (hleft : (tokensOf cs).2 = [])
    (hcalm : Calm (tokensOf cs).1) :
    ∃ (s : Token) (us : List Token), s.Is .semicolon ∧
      tokensOf (cs ++ '\n' :: ';' :: '\n' :: ds) =
        ((tokensOf cs).1 ++ s :: us, (tokensOf ds).2) ∧
      us.map Token.unplaced = (tokensOf ds).1.map Token.unplaced := by
  have hblank : ∀ b ∈ ['\n'], Terminal.isBlank b = true := by simp [Terminal.isBlank]
  have habove := tokensFrom_newline .start cs (';' :: '\n' :: ds) hleft hcalm
  have hmark := tokensFrom_blanks (Position.start.after cs) hblank (';' :: '\n' :: ds)
  rw [List.singleton_append, tokensFrom_semicolon] at hmark
  have hbelow (p : Position) : tokensFrom p ('\n' :: ds) = tokensFrom (p.after ['\n']) ds :=
    tokensFrom_blanks p hblank ds
  rw [hbelow] at hmark
  rw [hmark, tokensBefore_tokensBefore] at habove
  have hsemicolon (p : Position) : (Token.mk .semicolon ";" p).Is .semicolon :=
    ⟨rfl, (TokenKind.sample_is .semicolon).2⟩
  generalize (Position.start.after cs).after ['\n'] = p at habove
  generalize (p.after [';']).after ['\n'] = q at habove
  refine ⟨⟨.semicolon, ";", p⟩, (tokensFrom q ds).1, hsemicolon p, ?_,
    unplaced_tokensFrom q .start ds⟩
  rw [tokensOf_eq, habove]
  unfold tokensBefore
  rw [List.append_assoc, List.singleton_append]
  rfl

end VariantScript.Syntax
