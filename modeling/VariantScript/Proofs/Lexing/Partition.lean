import Mathlib.Data.List.Induction
import VariantScript.Proofs.Lexing.Terminals
import VariantScript.Proofs.Reading.Source

/-!
# How a text is cut

The lexemes of a text lie side by side from its start, none of them empty, up to the end of the text
or to the first place where nothing matches.  Each of them is what the expression of the first
terminal matches there, of those that match.  The tokens are the lexemes that are neither blanks nor
comments: each carries its text and the place where it stands, and a token is a keyword if its whole
text is one.
-/

namespace VariantScript.Syntax

/-! ## Notions -/

/-- What the expression of the first terminal matches at the head of a text, of those that match. -/
def firstMatch? (cs : List Char) : Option Lexeme :=
  Terminal.order.findSome? fun t => (t.regex.match? cs).map fun text => ⟨t, text⟩

/-- The place behind a text: its line feeds and the characters behind the last of them are
counted. -/
def placeBehind (text : List Char) : Position :=
  ⟨1 + text.count '\n', 1 + (text.reverse.takeWhile (· ≠ '\n')).length⟩

namespace Lexeme

/-- Whether a lexeme is left out among the tokens. -/
def isIgnored (l : Lexeme) : Bool :=
  match l.terminal with
  | .token _ => false
  | .blanks | .lineComment | .blockComment => true

/-- Lexemes side by side, each with the text in front of it. -/
def placed (before : List Char) : List Lexeme → List (List Char × Lexeme)
  | [] => []
  | l :: ls => (before, l) :: placed (before ++ l.text) ls

/-- How a text is cut into lexemes up to a place where nothing matches. -/
structure IsPartition (source : List Char) (ls : List Lexeme) (left : List Char) : Prop where
  /-- The lexemes and what is left make up the text. -/
  whole : joined ls ++ left = source
  /-- Each lexeme takes a character at least. -/
  filled : ∀ l ∈ ls, l.text ≠ []
  /-- Each lexeme is the first match where it stands. -/
  first : ∀ before l behind, ls = before ++ l :: behind →
    firstMatch? (l.text ++ joined behind ++ left) = some l
  /-- Nothing matches what is left. -/
  ends : firstMatch? left = none

/-- How a lexeme behind some text is a token. -/
structure IsToken (before : List Char) (l : Lexeme) (t : Token) : Prop where
  text : t.text = String.ofList l.text
  pos : t.pos = placeBehind before
  /-- A token is a keyword if its whole text is that keyword. -/
  keyword : ∀ word, t.kind = .keyword word ↔ t.text = word.spelling
  /-- Keywords are cut as names, all other tokens as what they are. -/
  kind : l.terminal = .token t.kind ∨
    l.terminal = .token .name ∧ ∃ word, t.kind = .keyword word

end Lexeme

/-! ## First matches -/

theorem Terminal.match?_regex_of_cut (t : Terminal) (cs : List Char) :
    t.regex.match? cs = (t.cut? cs).map Cut.text := by
  have hle := t.matchLength_le cs
  rw [match?_regex, cut?]
  by_cases hzero : t.matchLength cs = 0
  · rw [if_pos hzero, dif_neg (by omega)]
    rfl
  · have hne : cs ≠ [] := by
      rintro rfl
      exact hzero (Nat.le_zero.1 hle)
    rw [if_neg hzero, dif_pos ⟨by omega, hne⟩]
    rfl

/-- What is cut off is the first match. -/
theorem firstMatch?_eq (cs : List Char) :
    firstMatch? cs = (nextCut? cs).map fun c => ⟨c.terminal, c.text⟩ := by
  unfold firstMatch? nextCut?
  induction Terminal.order with
  | nil => rfl
  | cons t ts ih =>
      rw [List.findSome?_cons, List.findSome?_cons, ih, Terminal.match?_regex_of_cut]
      cases hcut : t.cut? cs with
      | none => rfl
      | some c =>
          have hterminal : c.terminal = t := (Terminal.takes_of_cut hcut).1
          simp [hterminal]

namespace Lexeme

theorem joined_cons (l : Lexeme) (ls : List Lexeme) : joined (l :: ls) = l.text ++ joined ls := rfl

/-- Cutting a text partitions it. -/
theorem isPartition_ofText (source : List Char) :
    IsPartition source (ofText source).1 (ofText source).2 := by
  refine ⟨joined_ofText source, fun l hl => (allTake_ofText source l hl).1, ?_, ?_⟩
  · intro before
    induction before generalizing source with
    | nil =>
        intro l behind hls
        cases hcut : nextCut? source with
        | none =>
            rw [ofText_none hcut] at hls
            cases hls
        | some c =>
            have hsource := joined_ofText source
            rw [hls, List.nil_append, joined_cons] at hsource
            rw [ofText_some hcut] at hls
            obtain ⟨rfl, -⟩ := List.cons.inj hls
            rw [hsource, firstMatch?_eq, hcut]
            rfl
    | cons b before ih =>
        intro l behind hls
        cases hcut : nextCut? source with
        | none =>
            rw [ofText_none hcut] at hls
            cases hls
        | some c =>
            rw [ofText_some hcut] at hls ⊢
            exact ih c.rest l behind (List.cons.inj hls).2
  · rw [firstMatch?_eq, nextCut_left]
    rfl

/-! ## Places and tokens -/

/-- Reading on moves the place as counting does. -/
theorem placeBehind_append_singleton (text : List Char) (c : Char) :
    placeBehind (text ++ [c]) = (placeBehind text).step c := by
  unfold placeBehind Position.step
  by_cases hc : c = '\n'
  · simp [hc, Nat.add_assoc]
  · simp [hc, Nat.add_comm]

theorem after_eq_placeBehind (text : List Char) : Position.start.after text = placeBehind text := by
  induction text using List.reverseRec with
  | nil => rfl
  | append_singleton text c ih =>
      rw [placeBehind_append_singleton, ← ih, Position.after_append]
      rfl

/-- A digit starts no name. -/
theorem not_isNameStart_of_isDigit {c : Char} (h : c.isDigit = true) :
    Terminal.isNameStart c = false := by
  have hdigit := Terminal.toNat_of_isDigit h
  rw [Bool.eq_false_iff]
  intro hstart
  rcases Terminal.toNat_of_isNameStart hstart with hletter | rfl | rfl
  · omega
  · revert hdigit
    decide
  · revert hdigit
    decide

/-- What is no name does not start like one. -/
theorem not_isNameStart_of_token {kind : TokenKind} {c : Char} {cs : List Char}
    (hkind : kind ≠ .name) (h : Terminal.matchLength (.token kind) (c :: cs) ≠ 0) :
    Terminal.isNameStart c = false := by
  have hmarks : ∀ mark ∈ Terminal.marks kind,
      (mark.head?.any fun d => ! Terminal.isNameStart d) = true := by
    cases kind with
    | keyword word => simp [Terminal.marks]
    | _ => decide
  have hmark (hlength : Terminal.markLength (Terminal.marks kind) (c :: cs) ≠ 0) :
      Terminal.isNameStart c = false := by
    obtain ⟨mark, hmem, hprefix⟩ := Terminal.exists_mark hlength
    have hhead := hmarks mark hmem
    cases mark with
    | nil => cases hhead
    | cons d mark =>
        obtain ⟨rfl, -⟩ := List.cons_prefix_cons.1 hprefix
        simpa using hhead
  cases kind with
  | name => exact absurd rfl hkind
  | number =>
      rcases Terminal.first_of_number h with hdigit | rfl
      · exact not_isNameStart_of_isDigit hdigit
      · rfl
  | string =>
      obtain rfl := Terminal.first_of_string h
      rfl
  | _ => exact hmark h

/-- Only names can be spelled like keywords. -/
theorem name_of_takes_spelling {kind : TokenKind} {word : Keyword}
    (h : Terminal.Takes (.token kind) word.spelling.toList) : kind = .name := by
  obtain ⟨hfilled, rest, hlength⟩ := h
  by_contra hkind
  have hfirst : ∃ c cs, word.spelling.toList = c :: cs ∧ Terminal.isNameStart c = true := by
    cases word <;> exact ⟨_, _, rfl, by decide⟩
  obtain ⟨c, cs, hspelling, hstart⟩ := hfirst
  rw [hspelling, List.cons_append] at hlength
  have hno := not_isNameStart_of_token hkind (by rw [hlength]; exact Nat.succ_ne_zero _)
  rw [hstart] at hno
  cases hno

/-- Spelling is read back as the keyword that is spelled. -/
theorem ofSpelling?_eq_some {text : String} {word : Keyword} :
    Keyword.ofSpelling? text = some word ↔ text = word.spelling := by
  constructor
  · intro h
    unfold Keyword.ofSpelling? at h
    have hspelling := List.find?_some h
    exact (beq_iff_eq.1 hspelling).symm
  · rintro rfl
    cases word <;> rfl

/-- Every lexeme that is not left out is a token. -/
theorem exists_token {l : Lexeme} (hl : l.terminal.Takes l.text) (h : l.isIgnored = false)
    (before : List Char) :
    ∃ t, l.token? (Position.start.after before) = some t ∧ IsToken before l t := by
  obtain ⟨terminal, text⟩ := l
  dsimp only at hl
  cases terminal with
  | token kind =>
      by_cases hkind : kind = .name
      · subst hkind
        cases hword : Keyword.ofSpelling? (String.ofList text) with
        | some word =>
            refine ⟨⟨.keyword word, String.ofList text, Position.start.after before⟩, ?_, ?_⟩
            · simp only [token?, hword]
            · refine ⟨rfl, after_eq_placeBehind before, fun other => ?_, .inr ⟨rfl, word, rfl⟩⟩
              dsimp only
              rw [← ofSpelling?_eq_some, hword]
              simp
        | none =>
            refine ⟨⟨.name, String.ofList text, Position.start.after before⟩, ?_, ?_⟩
            · simp only [token?, hword]
            · refine ⟨rfl, after_eq_placeBehind before, fun other => ?_, .inl rfl⟩
              dsimp only
              rw [← ofSpelling?_eq_some, hword]
              simp
      · refine ⟨⟨kind, String.ofList text, Position.start.after before⟩, ?_, ?_⟩
        · cases kind <;> first | rfl | exact absurd rfl hkind
        · refine ⟨rfl, after_eq_placeBehind before, fun word => ⟨?_, fun hspelled => ?_⟩, .inl rfl⟩
          · rintro rfl
            obtain ⟨hfilled, rest, hmatch⟩ := hl
            exact absurd (List.length_eq_zero_iff.1 hmatch.symm) hfilled
          · have hword : Terminal.Takes (.token kind) word.spelling.toList := by
              rw [← hspelled, String.toList_ofList]
              exact hl
            exact absurd (name_of_takes_spelling hword) hkind
  | blanks | lineComment | blockComment => cases h

/-- The tokens are those of the lexemes that are not left out. -/
theorem tokens_placed {ls : List Lexeme} (hls : AllTake ls) (before : List Char) :
    List.Forall₂ (fun l t => IsToken l.1 l.2 t)
      ((placed before ls).filter fun l => ! l.2.isIgnored)
      (tokens (Position.start.after before) ls) := by
  induction ls generalizing before with
  | nil => exact .nil
  | cons l ls ih =>
      have hrest := ih (fun l hl => hls l (.tail _ hl)) (before ++ l.text)
      rw [Position.after_append] at hrest
      rw [placed, tokens]
      cases hignored : l.isIgnored with
      | true =>
          have hnone : l.token? (Position.start.after before) = none := by
            unfold isIgnored at hignored
            unfold token?
            split at hignored <;> simp_all
          rw [hnone, List.filter_cons_of_neg (by simp [hignored])]
          exact hrest
      | false =>
          obtain ⟨t, ht, htoken⟩ := exists_token (hls l (.head _)) hignored before
          rw [ht, List.filter_cons_of_pos (by simp [hignored])]
          exact .cons htoken hrest

end Lexeme

/-! ## The partition -/

/-- Every text is cut into lexemes up to its end or to the first place where nothing matches, and its
tokens are those lexemes that are neither blanks nor comments. -/
theorem lexing_partitions_text (source : List Char) :
    Lexeme.IsPartition source (Lexeme.ofText source).1 (Lexeme.ofText source).2 ∧
      (tokensOf source).2 = (Lexeme.ofText source).2 ∧
      List.Forall₂ (fun l t => Lexeme.IsToken l.1 l.2 t)
        ((Lexeme.placed [] (Lexeme.ofText source).1).filter fun l => ! l.2.isIgnored)
        (tokensOf source).1 :=
  ⟨Lexeme.isPartition_ofText source, rfl, Lexeme.tokens_placed (Lexeme.allTake_ofText source) []⟩

end VariantScript.Syntax
