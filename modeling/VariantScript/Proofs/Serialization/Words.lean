import VariantScript.Proofs.Number.Numeral
import VariantScript.Proofs.Reading.Source
import VariantScript.Proofs.Serialization.Quoted

/-!
# The words of a written text

A token without its place is a word.  The words of a text are found from its head on, blanks between
them being left out, so a written form has words of its own wherever something follows that cannot go
on its last word: a comma, a closing mark or a new line.
-/

namespace VariantScript.Syntax

/-- A token without its place. -/
structure Word where
  kind : TokenKind
  text : String
deriving DecidableEq

/-- The word that a token is. -/
def Token.word (t : Token) : Word := ⟨t.kind, t.text⟩

namespace Lexeme

/-- The word that a lexeme is, if it is a token. -/
def word? (l : Lexeme) : Option Word :=
  (l.token? .start).map Token.word

theorem word?_of_token? (l : Lexeme) (p : Position) : (l.token? p).map Token.word = l.word? := by
  unfold word? token?
  split
  · dsimp only
    split <;> rfl
  · rfl
  · rfl

/-- Where lexemes lie does not matter for the words among them. -/
theorem word_tokens (p : Position) (ls : List Lexeme) :
    (tokens p ls).map Token.word = ls.filterMap word? := by
  induction ls generalizing p with
  | nil => rfl
  | cons l ls ih =>
      have hword := word?_of_token? l p
      unfold tokens
      split
      · rename_i t ht
        rw [ht] at hword
        rw [List.map_cons, ih, List.filterMap_cons_some hword.symm]
      · rename_i ht
        rw [ht] at hword
        rw [ih, List.filterMap_cons_none hword.symm]

end Lexeme

/-- The words of a text, and what is left from the first place where no terminal matches. -/
def wordsOf (cs : List Char) : List Word × List Char :=
  ((Lexeme.ofText cs).1.filterMap Lexeme.word?, (Lexeme.ofText cs).2)

theorem wordsOf_tokensOf (cs : List Char) :
    ((tokensOf cs).1.map Token.word, (tokensOf cs).2) = wordsOf cs := by
  unfold tokensOf wordsOf
  simp only [Lexeme.word_tokens]

theorem wordsOf_nil : wordsOf [] = ([], []) := by
  have hcut : nextCut? [] = none := by rfl
  unfold wordsOf
  rw [Lexeme.ofText_none hcut]
  rfl

/-! ## One lexeme -/

/-- The words in front of the words of what follows. -/
def wordsBefore (ws : List Word) (rest : List Char) : List Word × List Char :=
  (ws ++ (wordsOf rest).1, (wordsOf rest).2)

/-- A text is cut where the first terminal that matches ends. -/
theorem nextCut_append {t : Terminal} {text rest : List Char} (ht : t ∈ Terminal.order)
    (hne : text ≠ [])
    (hbefore : ((Terminal.order.takeWhile (· ≠ t)).all fun u =>
      u.matchLength (text ++ rest) = 0) = true)
    (hlength : t.matchLength (text ++ rest) = text.length) :
    ∃ cut : Cut (text ++ rest), nextCut? (text ++ rest) = some cut ∧ cut.terminal = t ∧
      cut.text = text ∧ cut.rest = rest := by
  obtain ⟨before, after, horder, hnot⟩ := List.eq_append_cons_of_mem ht
  have htake : Terminal.order.takeWhile (· ≠ t) = before := by
    rw [horder, List.takeWhile_append_of_pos fun u hu => by simpa using ne_of_mem_of_not_mem hu hnot]
    simp
  have hnone : before.findSome? (fun u => u.cut? (text ++ rest)) = none := by
    rw [List.findSome?_eq_none_iff]
    intro u hu
    have hmatch := List.all_eq_true.1 hbefore u (htake ▸ hu)
    simp [Terminal.cut?, of_decide_eq_true hmatch]
  have hcut : 0 < t.matchLength (text ++ rest) ∧ text ++ rest ≠ [] := by
    rw [hlength]
    exact ⟨List.length_pos_iff.2 hne, by simp [hne]⟩
  unfold nextCut?
  rw [horder, List.findSome?_append, hnone, Option.none_or, List.findSome?_cons, Terminal.cut?,
    dif_pos hcut]
  exact ⟨_, rfl, rfl, by simp [hlength], by simp [hlength]⟩

/-- The terminals before the one that is taken match nothing. -/
theorem matchLength_of_nextCut {cs : List Char} {c : Cut cs} (h : nextCut? cs = some c) :
    c.terminal ∈ Terminal.order ∧ c.terminal.matchLength cs = c.text.length ∧
      ∀ u ∈ Terminal.order.takeWhile (· ≠ c.terminal), u.matchLength cs = 0 := by
  obtain ⟨before, t, after, horder, hcut, hbefore⟩ := List.findSome?_eq_some_iff.1 h
  have hterminal := (Terminal.takes_of_cut hcut).1
  unfold Terminal.cut? at hcut
  split at hcut
  · rename_i hmatch
    have hlength : t.matchLength cs = c.text.length := by
      cases hcut
      rw [List.length_take, Nat.min_eq_left (Terminal.matchLength_le t cs)]
    have hnone (u : Terminal) (hu : u ∈ before) : u.matchLength cs = 0 := by
      have hfails := hbefore u hu
      unfold Terminal.cut? at hfails
      split at hfails
      · cases hfails
      · rename_i hno
        exact Nat.eq_zero_of_not_pos fun hpos => hno ⟨hpos, hmatch.2⟩
    have htake : Terminal.order.takeWhile (· ≠ c.terminal) = before := by
      rw [horder, hterminal, List.takeWhile_append_of_pos]
      · simp
      · intro u hu
        have hne : u ≠ t := by
          rintro rfl
          exact absurd (hnone u hu) (Nat.ne_of_gt hmatch.1)
        simpa using hne
    refine ⟨by rw [horder, hterminal]; simp, by rw [hterminal, hlength], fun u hu => ?_⟩
    exact hnone u (htake ▸ hu)
  · cases hcut

/-- A text is cut behind the blanks that it starts with. -/
theorem nextCut_blanks {b : Char} (hb : Terminal.isBlank b = true) (cs : List Char) :
    ∃ cut : Cut (b :: cs), nextCut? (b :: cs) = some cut ∧ cut.terminal = .blanks ∧
      cut.text = b :: cs.takeWhile Terminal.isBlank ∧
      cut.rest = cs.dropWhile Terminal.isBlank := by
  have hcut := @nextCut_append .blanks (b :: cs.takeWhile Terminal.isBlank)
    (cs.dropWhile Terminal.isBlank) (by decide) (by simp)
  rw [List.cons_append, List.takeWhile_append_dropWhile] at hcut
  refine hcut ?_ (by simp [Terminal.matchLength, hb])
  simp only [Terminal.isBlank, Bool.or_eq_true, decide_eq_true_eq] at hb
  rcases hb with (((rfl | rfl) | rfl) | rfl) | rfl <;> rfl

/-- The blanks at the head of a text are blanks all. -/
theorem isBlank_of_blanks {cs : List Char} {c : Cut cs} (hcut : nextCut? cs = some c)
    (hterminal : c.terminal = .blanks) : ∀ b ∈ c.text, Terminal.isBlank b = true := by
  obtain ⟨-, hlength, -⟩ := matchLength_of_nextCut hcut
  rw [hterminal, Terminal.matchLength] at hlength
  have htext : c.text = cs.takeWhile Terminal.isBlank := by
    rw [List.prefix_iff_eq_take.1 (List.takeWhile_prefix _), hlength]
    exact List.prefix_iff_eq_take.1 ⟨c.rest, c.text_append⟩
  intro b hb
  rw [htext] at hb
  exact List.mem_takeWhile_imp hb

/-- The word that is cut off stands before the words of what follows. -/
theorem wordsOf_cut {cs : List Char} {c : Cut cs} (h : nextCut? cs = some c) :
    wordsOf cs = wordsBefore (Lexeme.mk c.terminal c.text).word?.toList c.rest := by
  unfold wordsBefore wordsOf
  rw [Lexeme.ofText_some h]
  cases hword : (Lexeme.mk c.terminal c.text).word? with
  | none => rw [List.filterMap_cons_none hword]; rfl
  | some w => rw [List.filterMap_cons_some hword]; rfl

theorem wordsOf_append {t : Terminal} {text rest : List Char} (ht : t ∈ Terminal.order)
    (hne : text ≠ [])
    (hbefore : ((Terminal.order.takeWhile (· ≠ t)).all fun u =>
      u.matchLength (text ++ rest) = 0) = true)
    (hlength : t.matchLength (text ++ rest) = text.length) :
    wordsOf (text ++ rest) = wordsBefore (Lexeme.mk t text).word?.toList rest := by
  obtain ⟨cut, hcut, rfl, htext, hrest⟩ := nextCut_append ht hne hbefore hlength
  rw [wordsOf_cut hcut, htext, hrest]

/-! ## Marks, words and blanks -/

/-- The marks of the written forms. -/
def writtenMarks : List (TokenKind × Char) :=
  [(.lsqb, '['), (.rsqb, ']'), (.lbrace, '\x7b'), (.rbrace, '\x7d'), (.comma, ','), (.colon, ':'),
    (.minus, '-')]

theorem wordsOf_mark {kind : TokenKind} {c : Char} (h : (kind, c) ∈ writtenMarks)
    (rest : List Char) : wordsOf (c :: rest) = wordsBefore [⟨kind, String.singleton c⟩] rest := by
  have hcut := @wordsOf_append (.token kind) [c] rest
  simp only [writtenMarks, List.mem_cons, Prod.mk.injEq, List.not_mem_nil, or_false] at h
  rcases h with ⟨rfl, rfl⟩ | ⟨rfl, rfl⟩ | ⟨rfl, rfl⟩ | ⟨rfl, rfl⟩ | ⟨rfl, rfl⟩ | ⟨rfl, rfl⟩ |
    ⟨rfl, rfl⟩
  all_goals exact hcut (by decide) (by simp) rfl rfl

/-- A run of blanks has no words. -/
theorem wordsOf_dropWhile (cs : List Char) :
    wordsOf (cs.dropWhile Terminal.isBlank) = wordsOf cs := by
  cases cs with
  | nil => rfl
  | cons b cs =>
      by_cases hb : Terminal.isBlank b = true
      · obtain ⟨cut, hcut, hterminal, htext, hrest⟩ := nextCut_blanks hb cs
        unfold wordsOf
        rw [List.dropWhile_cons_of_pos hb, Lexeme.ofText_some hcut, hterminal, htext, hrest]
        rfl
      · rw [List.dropWhile_cons_of_neg hb]

theorem wordsOf_blanks {bs : List Char} (hbs : ∀ b ∈ bs, Terminal.isBlank b = true)
    (rest : List Char) : wordsOf (bs ++ rest) = wordsOf rest := by
  rw [← wordsOf_dropWhile, List.dropWhile_append_of_pos hbs, wordsOf_dropWhile]

theorem wordsOf_blank {b : Char} (hb : Terminal.isBlank b = true) (rest : List Char) :
    wordsOf (b :: rest) = wordsOf rest :=
  @wordsOf_blanks [b] (by simpa using hb) rest

/-! ## Written forms and their words -/

/-- Whether a text goes on with nothing that could go on the last word of a written form. -/
def EndsWord (cs : List Char) : Prop :=
  ∀ c ∈ cs.head?, c ∈ [',', ']', '\x7d', '\n']

/-- A text that has certain words wherever it ends. -/
def Spells (cs : List Char) (ws : List Word) : Prop :=
  ∀ rest, EndsWord rest → wordsOf (cs ++ rest) = wordsBefore ws rest

theorem EndsWord.endsNumeral {cs : List Char} (h : EndsWord cs) : Number.EndsNumeral cs := by
  intro c hc
  have hmem := h c hc
  simp only [List.mem_cons, List.not_mem_nil, or_false] at hmem
  rcases hmem with rfl | rfl | rfl | rfl <;> decide

/-- A text that spells no words behind it can be followed by one that does. -/
theorem Spells.append {cs ds : List Char} {ws us : List Word} (hcs : Spells cs ws)
    (hds : Spells ds us) (hends : ∀ rest, EndsWord rest → EndsWord (ds ++ rest)) :
    Spells (cs ++ ds) (ws ++ us) := by
  intro rest hrest
  rw [List.append_assoc, hcs _ (hends rest hrest), wordsBefore, hds rest hrest]
  simp [wordsBefore]

theorem Spells.mark {kind : TokenKind} {c : Char} (h : (kind, c) ∈ writtenMarks) {ds : List Char}
    {us : List Word} (hds : Spells ds us) :
    Spells (c :: ds) (⟨kind, String.singleton c⟩ :: us) := by
  intro rest hrest
  rw [List.cons_append, wordsOf_mark h, wordsBefore, hds rest hrest]
  rfl

theorem Spells.blanks {bs ds : List Char} {us : List Word}
    (hbs : ∀ b ∈ bs, Terminal.isBlank b = true) (hds : Spells ds us) : Spells (bs ++ ds) us := by
  intro rest hrest
  rw [List.append_assoc, wordsOf_blanks hbs, hds rest hrest]

theorem spells_nil : Spells [] [] :=
  fun _ _ => rfl

theorem spells_numeral {cs : List Char} (h : Number.IsNumeral cs) :
    Spells cs [⟨.number, String.ofList cs⟩] := by
  intro rest hrest
  obtain ⟨c, cs', rfl, -⟩ := h.exists_cons
  exact wordsOf_append (t := .token .number) (by decide) (by simp) rfl
    (h.numberLength_append hrest.endsNumeral)

/-- A string needs nothing behind it to end. -/
theorem wordsOf_encode (cs rest : List Char) :
    wordsOf (Text.Quoted.encode cs ++ rest) =
      wordsBefore [⟨.string, String.ofList (Text.Quoted.encode cs)⟩] rest :=
  wordsOf_append (t := .token .string) (by decide) (by simp [Text.Quoted.encode]) rfl
    (Text.Quoted.stringLength_encode cs rest)

theorem EndsWord.not_namePart {cs : List Char} (h : EndsWord cs) :
    ∀ c ∈ cs.head?, Terminal.isNamePart c = false := by
  intro c hc
  have hmem := h c hc
  simp only [List.mem_cons, List.not_mem_nil, or_false] at hmem
  rcases hmem with rfl | rfl | rfl | rfl <;> decide

/-- A name that ends is taken as one word. -/
theorem wordsOf_name {c : Char} {cs rest : List Char} (hc : Terminal.isNameStart c = true)
    (hcs : cs.all Terminal.isNamePart = true)
    (hrest : ∀ d ∈ rest.head?, Terminal.isNamePart d = false)
    (hnumber : Terminal.numberLength (c :: (cs ++ rest)) = 0) :
    wordsOf (c :: cs ++ rest) =
      wordsBefore (Lexeme.mk (.token .name) (c :: cs)).word?.toList rest := by
  have htail : rest.takeWhile Terminal.isNamePart = [] := by
    cases rest with
    | nil => rfl
    | cons d rest => simp [hrest d rfl]
  have hlength : Terminal.nameLength (c :: (cs ++ rest)) = cs.length + 1 := by
    rw [Terminal.nameLength, if_pos hc, List.takeWhile_append_of_pos (List.all_eq_true.1 hcs), htail,
      List.append_nil, Nat.add_comm]
  refine wordsOf_append (t := .token .name) (by decide) (by simp) ?_ hlength
  have hbefore : Terminal.order.takeWhile (· ≠ .token .name) = [.token .number] := rfl
  rw [hbefore, List.all_cons, List.all_nil, Bool.and_true, decide_eq_true_eq]
  exact hnumber

/-- The written form of a truth value. -/
def truthText (flag : Bool) : String :=
  if flag then "true" else "false"

theorem spells_truth (flag : Bool) :
    Spells (truthText flag).toList
      [⟨.keyword (if flag then .trueWord else .falseWord), truthText flag⟩] := by
  intro rest hrest
  cases flag with
  | true =>
      have htext : (truthText true).toList = ['t', 'r', 'u', 'e'] := by simp [truthText]
      rw [htext]
      exact wordsOf_name rfl rfl hrest.not_namePart rfl
  | false =>
      have htext : (truthText false).toList = ['f', 'a', 'l', 's', 'e'] := by simp [truthText]
      rw [htext]
      exact wordsOf_name rfl rfl hrest.not_namePart rfl

end VariantScript.Syntax

namespace VariantScript.Json

open Syntax

/-! ## Layouts -/

/-- A layout whose lines start with blanks. -/
def Layout.IsBlank : Layout → Prop
  | .oneLine => True
  | .lines indent => ∀ c ∈ indent.toList, Terminal.isBlank c = true

theorem Layout.isBlank_ofWidth (width : Int) : (Layout.ofWidth width).IsBlank := by
  intro c hc
  rw [String.toList_ofList] at hc
  rw [List.eq_of_mem_replicate hc]
  rfl

variable {l : Layout}

theorem Layout.toList_newline (indent : String) (depth : Nat) :
    ((lines indent).newline depth).toList =
      '\n' :: (List.replicate depth indent).flatMap String.toList := by
  rw [newline, String.toList_append, String.toList_join]
  rfl

theorem Layout.IsBlank.newline (hl : l.IsBlank) (depth : Nat) :
    ∀ b ∈ (l.newline depth).toList, Terminal.isBlank b = true := by
  cases l with
  | oneLine => simp [Layout.newline]
  | lines indent =>
      intro b hb
      rw [Layout.toList_newline] at hb
      rcases List.mem_cons.1 hb with rfl | hb
      · rfl
      · obtain ⟨line, hline, hb⟩ := List.mem_flatMap.1 hb
        rw [List.eq_of_mem_replicate hline] at hb
        exact hl b hb

/-- A separator is a comma and blanks. -/
theorem Layout.IsBlank.separator (hl : l.IsBlank) (depth : Nat) :
    ∃ bs, (l.separator depth).toList = ',' :: bs ∧ ∀ b ∈ bs, Terminal.isBlank b = true := by
  cases l with
  | oneLine => exact ⟨[' '], by simp [Layout.separator], by simp [Terminal.isBlank]⟩
  | lines indent =>
      refine ⟨((Layout.lines indent).newline depth).toList, ?_, hl.newline depth⟩
      rw [Layout.separator, String.toList_append]
      rfl

theorem endsWord_newline (l : Layout) (depth : Nat) {right : Char}
    (hright : right = ']' ∨ right = '\x7d') (rest : List Char) :
    EndsWord ((l.newline depth).toList ++ right :: rest) := by
  cases l with
  | oneLine =>
      rintro c ⟨⟩
      rcases hright with rfl | rfl <;> decide
  | lines indent =>
      rw [Layout.toList_newline]
      rintro c ⟨⟩
      decide

/-- The words of items with commas between them. -/
def commaSeparated (wss : List (List Word)) : List Word :=
  List.intercalate [⟨.comma, ","⟩] wss

/-- Texts of items side by side with their words. -/
abbrev SpellAll (texts : List String) (wss : List (List Word)) : Prop :=
  List.Forall₂ (fun text ws => Spells text.toList ws) texts wss

theorem spells_separated (hl : l.IsBlank) (depth : Nat) {texts : List String}
    {wss : List (List Word)} (h : SpellAll texts wss) :
    Spells (String.intercalate (l.separator depth) texts).toList (commaSeparated wss) := by
  obtain ⟨bs, hseparator, hbs⟩ := hl.separator depth
  rw [String.toList_intercalate, hseparator]
  unfold commaSeparated
  induction h with
  | nil => exact spells_nil
  | @cons text ws texts wss hfirst hrest ih =>
      cases hrest with
      | nil => simpa using hfirst
      | @cons text' ws' texts wss hsecond hrest =>
          have hcomma : (TokenKind.comma, ',') ∈ writtenMarks := by decide
          rw [List.map_cons, List.map_cons, List.intercalate_cons_cons, List.intercalate_cons_cons,
            List.append_assoc, List.append_assoc]
          refine hfirst.append (.mark hcomma (.blanks hbs ih)) ?_
          rintro rest - c ⟨⟩
          decide

/-- Items between brackets have the words of the brackets and of the items. -/
theorem spells_enclose (hl : l.IsBlank) (depth : Nat) {opening closing : TokenKind}
    {left right : Char} (hleft : (opening, left) ∈ writtenMarks)
    (hright : (closing, right) ∈ writtenMarks) (hends : right = ']' ∨ right = '\x7d')
    {texts : List String} {wss : List (List Word)} (h : SpellAll texts wss) :
    Spells (l.enclose depth (String.singleton left) (String.singleton right) texts).toList
      (⟨opening, String.singleton left⟩ ::
        (commaSeparated wss ++ [⟨closing, String.singleton right⟩])) := by
  have hclose : Spells [right] [⟨closing, String.singleton right⟩] := .mark hright spells_nil
  cases texts with
  | nil =>
      cases h
      rw [Layout.enclose, String.toList_append, String.toList_singleton, String.toList_singleton]
      exact .mark hleft hclose
  | cons text texts =>
      have hitems := spells_separated hl (depth + 1) h
      have hbehind : Spells ((l.newline depth).toList ++ [right])
          [⟨closing, String.singleton right⟩] := .blanks (hl.newline depth) hclose
      have hinside := hitems.append hbehind fun rest _ => by
        rw [List.append_assoc]
        exact endsWord_newline l depth hends rest
      have htext : (l.enclose depth (String.singleton left) (String.singleton right)
          (text :: texts)).toList = left :: ((l.newline (depth + 1)).toList ++
            ((String.intercalate (l.separator (depth + 1)) (text :: texts)).toList ++
              ((l.newline depth).toList ++ [right]))) := by
        simp [Layout.enclose]
      rw [htext]
      exact .mark hleft (.blanks (hl.newline (depth + 1)) hinside)

/-! ## Strings and entries -/

theorem wordsOf_writeText (text : String) (rest : List Char) :
    wordsOf ((writeText text).toList ++ rest) = wordsBefore [⟨.string, writeText text⟩] rest := by
  rw [writeText, String.toList_ofList]
  exact wordsOf_encode text.toList rest

theorem spells_writeText (text : String) :
    Spells (writeText text).toList [⟨.string, writeText text⟩] :=
  fun rest _ => wordsOf_writeText text rest

/-- An entry has the words of its name, a colon and the words of its item. -/
theorem spells_entry (name : String) {text : String} {ws : List Word}
    (h : Spells text.toList ws) :
    Spells (writeText name ++ ": " ++ text).toList
      (⟨.string, writeText name⟩ :: ⟨.colon, ":"⟩ :: ws) := by
  have hcolon : (TokenKind.colon, ':') ∈ writtenMarks := by decide
  have hitem : Spells (':' :: ([' '] ++ text.toList)) (⟨.colon, ":"⟩ :: ws) :=
    .mark hcolon (.blanks (by simp [Terminal.isBlank]) h)
  intro rest hrest
  have htext : (writeText name ++ ": " ++ text).toList ++ rest =
      (writeText name).toList ++ (':' :: ([' '] ++ text.toList) ++ rest) := by
    simp
  rw [htext, wordsOf_writeText, wordsBefore, hitem rest hrest]
  rfl

end VariantScript.Json
