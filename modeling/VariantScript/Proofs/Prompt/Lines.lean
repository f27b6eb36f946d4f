import VariantScript.Prompt.Dialogue
import VariantScript.Proofs.Joining.Statements

/-!
# Programs at the prompt

A line that is a program is run as one.  Its first token starts with a character that stays in the
line and is no blank, and with a slash only if it is an operator of products, with which no program
starts.  So the line is neither blank nor a command, unless it opens with a comment, and all that is
lost on the way are the characters that cannot be seen.
-/

namespace VariantScript

open Syntax

/-! ## Blanks around a text -/

namespace Text

theorem trimLeft_append {bs : List Char} (hbs : ∀ b ∈ bs, isBlank b = true) {c : Char}
    (hc : isBlank c = false) (cs : List Char) : trimLeft (bs ++ c :: cs) = c :: cs := by
  unfold trimLeft
  rw [List.dropWhile_append_of_pos hbs, List.dropWhile_cons_of_neg (by simp [hc])]

theorem trimRight_cons {c : Char} (hc : isBlank c = false) (cs : List Char) :
    trimRight (c :: cs) = c :: trimRight cs := by
  unfold trimRight
  rw [List.reverse_cons, List.dropWhile_append]
  by_cases hnone : (cs.reverse.dropWhile isBlank).isEmpty = true
  · rw [if_pos hnone, List.dropWhile_cons_of_neg (by simp [hc]), List.isEmpty_iff.1 hnone]
    rfl
  · rw [if_neg hnone, List.reverse_append]
    rfl

/-- What stands in front of the first character that is no blank is trimmed, and that stays. -/
theorem trim_append {bs : List Char} (hbs : ∀ b ∈ bs, isBlank b = true) {c : Char}
    (hc : isBlank c = false) (cs : List Char) : trim (bs ++ c :: cs) = c :: trimRight cs := by
  unfold trim
  rw [trimLeft_append hbs hc, trimRight_cons hc]

/-- The blanks between tokens are blanks of a line. -/
theorem isBlank_of_terminal {c : Char} (h : Terminal.isBlank c = true) : isBlank c = true := by
  simp only [Terminal.isBlank, Bool.or_eq_true, decide_eq_true_eq] at h
  rcases h with (((rfl | rfl) | rfl) | rfl) | rfl <;> decide

end Text

namespace Prompt

/-! ## Characters that can be seen -/

/-- Whether a character stays in a line and is no blank. -/
def shows (c : Char) : Bool :=
  ! isInvisible c && ! Text.isBlank c

theorem shows_iff {c : Char} :
    shows c = true ↔ isInvisible c = false ∧ Text.isBlank c = false := by
  simp [shows]

/-- The characters between the space and the end of the basic alphabet can be seen. -/
theorem shows_of_toNat {c : Char} (hlow : 0x21 ≤ c.toNat) (hhigh : c.toNat ≤ 0x7e) :
    shows c = true := by
  rw [shows_iff]
  constructor
  · rw [Bool.eq_false_iff]
    intro h
    simp only [isInvisible, Bool.or_eq_true, decide_eq_true_eq] at h
    rcases h with ((((rfl | rfl) | rfl) | rfl) | rfl) | rfl
    all_goals revert hlow hhigh; decide
  · simp only [Text.isBlank, Bool.or_eq_false_iff, Bool.and_eq_false_iff, decide_eq_false_iff_not,
      beq_eq_false_iff_ne]
    omega

theorem shows_of_isDigit {c : Char} (h : c.isDigit = true) : shows c = true := by
  have hdigit := Terminal.toNat_of_isDigit h
  exact shows_of_toNat (by omega) (by omega)

theorem shows_of_isNameStart {c : Char} (h : Terminal.isNameStart c = true) : shows c = true := by
  rcases Terminal.toNat_of_isNameStart h with hletter | rfl | rfl
  · exact shows_of_toNat (by omega) (by omega)
  · decide
  · decide

end Prompt

/-! ## The first character of a token -/

namespace Syntax.Terminal

open Prompt (shows shows_of_isDigit shows_of_isNameStart)

variable {c : Char} {cs : List Char}

/-- Every mark starts with a character that can be seen, and with a slash only the one for
division. -/
theorem marks_show (kind : TokenKind) : ∀ mark ∈ marks kind,
    (mark.head?.any fun c => shows c && (c ≠ '/' || kind = .mulOp)) = true := by
  cases kind with
  | keyword word => simp [marks]
  | _ => decide

theorem first_of_mark {kind : TokenKind} (h : markLength (marks kind) (c :: cs) ≠ 0) :
    shows c = true ∧ (c = '/' → kind = .mulOp) := by
  obtain ⟨mark, hmark, hprefix⟩ := exists_mark h
  have hshow := marks_show kind mark hmark
  cases mark with
  | nil => cases hshow
  | cons d mark =>
      obtain ⟨rfl, -⟩ := List.cons_prefix_cons.1 hprefix
      simpa [imp_iff_not_or] using hshow

/-- A token starts with a character that can be seen, and with a slash only if it is an operator of
products. -/
theorem first_of_token {kind : TokenKind} (h : (token kind).matchLength (c :: cs) ≠ 0) :
    shows c = true ∧ (c = '/' → kind = .mulOp) := by
  cases kind with
  | number =>
      rcases first_of_number h with hdigit | rfl
      · refine ⟨shows_of_isDigit hdigit, ?_⟩
        rintro rfl
        revert hdigit
        decide
      · decide
  | name =>
      have hstart := first_of_name h
      refine ⟨shows_of_isNameStart hstart, ?_⟩
      rintro rfl
      revert hstart
      decide
  | string =>
      obtain rfl := first_of_string h
      decide
  | _ => exact first_of_mark h

end Syntax.Terminal

/-! ## Lines that are programs -/

namespace Syntax

/-- A text whose first characters besides blanks open a comment. -/
def StartsWithComment (cs : List Char) : Prop :=
  ['/', '/'] <+: cs.dropWhile Terminal.isBlank ∨ ['/', '*'] <+: cs.dropWhile Terminal.isBlank

instance : DecidablePred StartsWithComment :=
  fun _ => inferInstanceAs (Decidable (_ ∨ _))

/-- The tokens of a program start with no operator of products. -/
theorem Program.settled_of_read {cs : List Char} {t : Term} (h : Program.read cs = .ok t) :
    Settled (tokensOf cs).1 := by
  obtain ⟨-, hprogram⟩ := Program.tokens_of_read h
  have hproduces := Phrase.produces_of_program (genuine_tokensOf cs) hprogram
  exact Grammar.settled_of_produces hproduces

/-- The first character of a program besides blanks can be seen and is no slash, if the program has
tokens and does not open with a comment. -/
theorem Program.first_of_read {cs : List Char} {t : Term} (hread : Program.read cs = .ok t)
    (htokens : (tokensOf cs).1 ≠ []) (hcomment : ¬ StartsWithComment cs) :
    ∃ c rest, cs.dropWhile Terminal.isBlank = c :: rest ∧ Prompt.shows c = true ∧ c ≠ '/' := by
  have hhead := (Program.settled_of_read hread).head
  unfold StartsWithComment at hcomment
  have hblank := List.head?_dropWhile_not Terminal.isBlank cs
  rw [tokensOf_eq, tokensFrom_dropWhile] at htokens hhead
  generalize Position.start.after (cs.takeWhile Terminal.isBlank) = p at htokens hhead
  cases hds : cs.dropWhile Terminal.isBlank with
  | nil =>
      rw [hds, tokensFrom_nil] at htokens
      exact absurd rfl htokens
  | cons c rest =>
      rw [hds] at htokens hhead hcomment hblank
      cases hcut : nextCut? (c :: rest) with
      | none =>
          unfold tokensFrom at htokens
          rw [Lexeme.ofText_none hcut] at htokens
          exact absurd rfl htokens
      | some cut =>
          obtain ⟨-, hlength, -⟩ := matchLength_of_nextCut hcut
          have hmatch : cut.terminal.matchLength (c :: rest) ≠ 0 := by
            rw [hlength]
            exact Nat.ne_of_gt (List.length_pos_iff.2 cut.text_ne)
          rw [tokensFrom_cut p hcut] at hhead
          cases hterminal : cut.terminal with
          | blanks =>
              rw [hterminal] at hmatch
              refine absurd ?_ hmatch
              have hnone : Terminal.isBlank c = false := by simpa using hblank
              show ((c :: rest).takeWhile Terminal.isBlank).length = 0
              rw [List.takeWhile_cons_of_neg (by simp [hnone])]
              rfl
          | lineComment =>
              rw [hterminal] at hmatch
              exact absurd (.inl (Terminal.prefix_of_lineComment hmatch)) hcomment
          | blockComment =>
              rw [hterminal] at hmatch
              exact absurd (.inr (Terminal.prefix_of_blockComment hmatch)) hcomment
          | token kind =>
              rw [hterminal] at hmatch hhead
              obtain ⟨hshows, hslash⟩ := Terminal.first_of_token hmatch
              refine ⟨c, rest, rfl, hshows, ?_⟩
              intro hc
              obtain rfl := hslash hc
              exact hhead _ rfl rfl

end Syntax

namespace Prompt

/-! ## What a line asks for -/

theorem toList_normalize (text : String) :
    (normalize text).toList = text.toList.filter (! isInvisible ·) := by
  unfold normalize
  rw [String.toList_ofList]

/-- A line keeps all its characters if they can be seen. -/
theorem normalize_of_visible {text : String} (h : ∀ c ∈ text.toList, isInvisible c = false) :
    normalize text = text := by
  unfold normalize
  rw [List.filter_eq_self.2 fun c hc => by simp [h c hc], String.ofList_toList]

/-- A line is taken for code if its first character besides blanks is no slash. -/
theorem Request.ofLine_code {line : String} {bs cs : List Char} {c : Char}
    (hline : line.toList = bs ++ c :: cs) (hbs : ∀ b ∈ bs, Text.isBlank b = true)
    (hc : Text.isBlank c = false) (hslash : c ≠ '/') : Request.ofLine line = .code line := by
  unfold Request.ofLine
  rw [hline, Text.trim_append hbs hc]
  split
  · contradiction
  · rename_i heq
    cases heq
    contradiction
  · rfl

/-- A program that does not open with a comment is taken for code. -/
theorem ofLine_normalize {text : String} {t : Term} (hread : Program.read text.toList = .ok t)
    (htokens : (tokensOf text.toList).1 ≠ []) (hcomment : ¬ StartsWithComment text.toList) :
    Request.ofLine (normalize text) = .code (normalize text) := by
  obtain ⟨c, rest, hrest, hshows, hslash⟩ := Program.first_of_read hread htokens hcomment
  obtain ⟨hvisible, hblank⟩ := shows_iff.1 hshows
  have hline : (normalize text).toList =
      (text.toList.takeWhile Terminal.isBlank).filter (! isInvisible ·) ++
        c :: rest.filter (! isInvisible ·) := by
    have hparts := List.takeWhile_append_dropWhile (p := Terminal.isBlank) (l := text.toList)
    rw [hrest] at hparts
    rw [toList_normalize, ← List.filter_cons_of_pos (by simp [hvisible]), ← List.filter_append,
      hparts]
  refine Request.ofLine_code hline ?_ hblank hslash
  intro b hb
  have hmem := (List.mem_filter.1 hb).1
  exact Text.isBlank_of_terminal (List.mem_takeWhile_imp hmem)

/-! ## What is run -/

/-- Running a text changes the session of the prompt and nothing else that the prompt keeps. -/
theorem next_runCode (code : String) (p : Prompt) :
    (p.runCode code).next = { p with session := (p.session.clearEvents.run code).2 } := by
  unfold runCode
  rcases p.session.clearEvents.run code with ⟨result, session⟩
  rfl

/-- A line that is a program with tokens, and does not open with a comment, is run in the session:
the answer is that of the line without the characters that cannot be seen, which is the line itself
if it has none. -/
theorem respond_program (p : Prompt) {text : String} {t : Term}
    (hread : Program.read text.toList = .ok t) (htokens : (tokensOf text.toList).1 ≠ [])
    (hcomment : ¬ StartsWithComment text.toList) :
    Request.ofLine (normalize text) = .code (normalize text) ∧
      p.respond (.line text) = p.runCode (normalize text) ∧
        (p.respond (.line text)).next =
          { p with session := (p.session.clearEvents.run (normalize text)).2 } ∧
        ((∀ c ∈ text.toList, isInvisible c = false) →
          p.respond (.line text) = p.runCode text ∧
            (p.respond (.line text)).next =
              { p with session := (p.session.clearEvents.run text).2 }) := by
  have hcode := ofLine_normalize hread htokens hcomment
  have hrespond : p.respond (.line text) = p.runCode (normalize text) := by
    simp only [respond, hcode]
  refine ⟨hcode, hrespond, ?_, ?_⟩
  · rw [hrespond, next_runCode]
  · intro hvisible
    rw [hrespond, normalize_of_visible hvisible]
    exact ⟨rfl, next_runCode text p⟩

/-- A line with a carriage return behind an expression, at a new prompt. -/
theorem respond_program_sum :
    let p : Prompt := ⟨.start false .recording, false, .standard⟩
    let text := "1 + 2 // three\r"
    ∃ t, Program.read text.toList = .ok t ∧
      p.respond (.line text) = p.runCode "1 + 2 // three" ∧
        (p.respond (.line text)).written = [.standard "3\n"] := by
  intro p text
  obtain ⟨t, hread⟩ : ∃ t, Program.read text.toList = .ok t :=
    Program.exists_of_isOk (by decide +kernel)
  have hwritten : (p.respond (.line text)).written = [.standard "3\n"] := by decide +kernel
  have hline : normalize text = "1 + 2 // three" := by decide +kernel
  obtain ⟨-, hrespond, -⟩ := respond_program p hread (by decide +kernel) (by decide +kernel)
  rw [hline] at hrespond
  exact ⟨t, hread, hrespond, hwritten⟩

/-- A line that opens with a comment is taken for a command although it is a program, and a string
loses a space that does not break. -/
theorem respond_not_as_run :
    let p : Prompt := ⟨.start false .recording, false, .standard⟩
    let text := "/* c */ 1"
    let other := "\"a\u00a0b\".length"
    ((Program.read text.toList).isOk = true ∧ (tokensOf text.toList).1 ≠ [] ∧
      (p.respond (.line text)).written = [.diagnostic "Unknown command: /*\n"] ∧
        (p.runCode text).written = [.standard "1\n"]) ∧
      (Program.read other.toList).isOk = true ∧ (tokensOf other.toList).1 ≠ [] ∧
        (p.respond (.line other)).written = [.standard "2\n"] ∧
          (p.runCode other).written = [.standard "3\n"] := by
  decide +kernel

end Prompt

end VariantScript
