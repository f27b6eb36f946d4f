import VariantScript.Proofs.Reading.Source
import VariantScript.Proofs.Reading.Steadiness.Phrase

/-!
# Programs and the earliest place of an error

A source text is read as a program exactly when its tokens are one by the grammar.  The tree is
that of a derivation, and of all trees it is the one that prefers blocks.  A text that is refused
is refused at the first token with which no program can start, else at the first character with
which no terminal can start, else at the end.
-/

namespace VariantScript.Syntax

namespace Grammar

/-- Whether tokens are a program. -/
def IsProgram (w : List Token) : Prop :=
  ∃ m, Reads .start w m

/-- Whether tokens can go on to a program. -/
def Viable (w : List Token) : Prop :=
  ∃ v, IsProgram (w ++ v)

/-- Whether a token is the first one with which no program can go on. -/
def FirstBad (ts : List Token) (t : Token) : Prop :=
  ∃ before behind, ts = before ++ t :: behind ∧ Viable before ∧ ¬ Viable (before ++ [t])

theorem isProgram_iff {w : List Token} : IsProgram w ↔ ∃ n, Produces (.one .start) w [n] := by
  constructor
  · rintro ⟨m, hm⟩
    exact ⟨m.normalize, (reads_iff_produces (by simp)).1 ⟨m, hm, rfl⟩⟩
  · rintro ⟨n, hn⟩
    obtain ⟨m, hm, -⟩ := (reads_iff_produces (by simp)).2 hn
    exact ⟨m, hm⟩

theorem isProgram_of_statements {w : List Token} {ns : List Node} (h : Produces .statements w ns) :
    IsProgram w :=
  isProgram_iff.2 ⟨_, .start h⟩

theorem IsProgram.viable {w : List Token} (h : IsProgram w) : Viable w :=
  ⟨[], by rwa [List.append_nil]⟩

theorem Viable.of_append {u v : List Token} (h : Viable (u ++ v)) : Viable u := by
  obtain ⟨x, hx⟩ := h
  exact ⟨v ++ x, by rwa [← List.append_assoc]⟩

theorem FirstBad.not_viable {ts : List Token} {t : Token} (h : FirstBad ts t) : ¬ Viable ts := by
  obtain ⟨before, behind, rfl, -, hbad⟩ := h
  intro hviable
  rw [List.append_cons] at hviable
  exact hbad hviable.of_append

theorem FirstBad.unique {ts : List Token} {t u : Token} (ht : FirstBad ts t)
    (hu : FirstBad ts u) : t = u := by
  obtain ⟨before, behind, rfl, hbefore, ht⟩ := ht
  obtain ⟨before', behind', heq, hbefore', hu⟩ := hu
  rcases List.append_eq_append_iff.1 heq with ⟨as, has, hbehind⟩ | ⟨as, has, hbehind⟩
  · cases as with
    | nil => exact (List.cons.inj hbehind).1
    | cons a as =>
        obtain ⟨rfl, -⟩ := List.cons.inj hbehind
        rw [has, List.append_cons] at hbefore'
        exact absurd hbefore'.of_append ht
  · cases as with
    | nil => exact (List.cons.inj hbehind).1.symm
    | cons a as =>
        obtain ⟨rfl, -⟩ := List.cons.inj hbehind
        rw [has, List.append_cons] at hbefore
        exact absurd hbefore.of_append hu

end Grammar

open Grammar

/-! ## Programs of tokens -/

namespace Phrase

open Outcome

theorem statements_of_program {ts : List Token} {t : Term} (h : program ts = .ok t) :
    ∃ body, (statements ts).outcome = .ok (body, []) ∧ t = .node (startOf ts) (.program body) := by
  rw [program_eq] at h
  split at h
  · rename_i body hread
    exact ⟨body, hread, by simpa using h.symm⟩
  · cases h
  · cases h

theorem left_of_program {ts rest : List Token} (h : program ts = .error rest) :
    (statements ts).outcome.left = rest := by
  rw [program_eq] at h
  split at h
  · cases h
  · rename_i hread
    rw [hread]
    exact Except.error.inj h
  · rename_i hread
    rw [hread]
    exact Except.error.inj h

/-- What is read as a program is one, and its tree is that of a derivation. -/
theorem produces_of_program {ts : List Token} (hts : Genuine ts) {t : Term}
    (h : program ts = .ok t) : Produces (.one .start) ts [t.toNode] := by
  obtain ⟨body, hread, rfl⟩ := statements_of_program h
  have hsound := sound_statements hts
  rw [hread] at hsound
  obtain ⟨w, hw, hproduces⟩ := hsound
  rw [List.append_nil] at hw
  subst hw
  simpa [Term.toNode, Form.toNode, toNodes_term] using Produces.start hproduces

theorem reads_of_program {ts : List Token} (hts : Genuine ts) {t : Term}
    (h : program ts = .ok t) : ∃ m, Reads .start ts m ∧ t.toNode = m.normalize :=
  (reads_iff_produces (by simp)).2 (produces_of_program hts h)

theorem program_of_reads {ts : List Token} {m : Node} (h : Reads .start ts m) :
    ∃ t, program ts = .ok t ∧ Prefers t.toNode m.normalize :=
  program_of_produces ((reads_iff_produces (by simp)).1 ⟨m, h, rfl⟩)

theorem program_iff_isProgram {ts : List Token} (hts : Genuine ts) :
    (∃ t, program ts = .ok t) ↔ IsProgram ts := by
  constructor
  · rintro ⟨t, ht⟩
    obtain ⟨m, hm, -⟩ := reads_of_program hts ht
    exact ⟨m, hm⟩
  · rintro ⟨m, hm⟩
    obtain ⟨t, ht, -⟩ := program_of_reads hm
    exact ⟨t, ht⟩

theorem genuine_of_isProgram {w : List Token} (h : IsProgram w) : Genuine w := by
  obtain ⟨n, hn⟩ := isProgram_iff.1 h
  exact genuine_of_produces hn

/-- The tokens before those that are left can go on to a program. -/
theorem viable_before_left {ts : List Token} (hts : Genuine ts) :
    ∃ before, ts = before ++ (statements ts).outcome.left ∧ Viable before := by
  have hsound := sound_statements hts
  unfold Outcome.Sound at hsound
  split at hsound
  · rename_i hread
    obtain ⟨w, hw, hproduces⟩ := hsound
    rw [hread]
    exact ⟨w, hw, (isProgram_of_statements hproduces).viable⟩
  · rename_i hread
    obtain ⟨w, hw, v, ns, hproduces⟩ := hsound
    rw [hread]
    exact ⟨w, hw, v, isProgram_of_statements hproduces⟩

/-- With the first token that is left no program can go on.  A program that did would be read to its
end, but up to this token it is read as it is here. -/
theorem not_viable_at_left {before behind : List Token} {t : Token}
    (hts : Genuine (before ++ t :: behind))
    (h : (statements (before ++ t :: behind)).outcome.left = t :: behind) :
    ¬ Viable (before ++ [t]) := by
  rintro ⟨v, hv⟩
  obtain ⟨p, hp⟩ := (program_iff_isProgram (genuine_of_isProgram hv)).2 hv
  obtain ⟨body, hread, -⟩ := statements_of_program hp
  rw [List.append_cons] at hts h
  have hnear : Near behind v (before ++ [t] ++ behind) (some (before ++ [t] ++ v)) :=
    .before (by simp) hts (genuine_append.1 (genuine_of_isProgram hv)).2
  obtain ⟨-, hs | ⟨m, hm, ⟨x, -, hother⟩ | ⟨-, hother⟩⟩⟩ := steady_statements _ _ hnear
  · rw [h, List.length_cons] at hs
    omega
  · rw [Option.map_some, hread] at hother
    cases m with
    | nil => exact absurd rfl hm
    | cons b m => simp at hother
  · rw [Option.map_some, hread] at hother
    cases hother

/-- A reader of programs fails at the first token with which no program can go on. -/
theorem firstBad_of_program {ts behind : List Token} (hts : Genuine ts) {t : Token}
    (h : program ts = .error (t :: behind)) : FirstBad ts t := by
  obtain ⟨before, hbefore, hviable⟩ := viable_before_left hts
  have hleft := left_of_program h
  rw [hleft] at hbefore
  subst hbefore
  exact ⟨before, behind, rfl, hviable, not_viable_at_left hts hleft⟩

/-- Where the reader fails at the end, only the end is missing. -/
theorem viable_of_program {ts : List Token} (hts : Genuine ts) (h : program ts = .error []) :
    Viable ts ∧ ¬ IsProgram ts := by
  obtain ⟨before, hbefore, hviable⟩ := viable_before_left hts
  rw [left_of_program h, List.append_nil] at hbefore
  refine ⟨hbefore ▸ hviable, fun hprogram => ?_⟩
  obtain ⟨t, ht⟩ := (program_iff_isProgram hts).2 hprogram
  rw [h] at ht
  cases ht

end Phrase

/-! ## Programs of source texts -/

namespace Program

theorem read_of_ok {source : List Char} {t : Term} (h : Phrase.program (tokensOf source).1 = .ok t)
    (hleft : (tokensOf source).2 = []) : read source = .ok t := by
  unfold read
  dsimp only
  rw [h, hleft]

/-- Reading a text comes out in one of four ways. -/
inductive Reading (source : List Char) : Except SyntaxError Term → Prop where
  | program {t : Term} (h : Phrase.program (tokensOf source).1 = .ok t)
      (hleft : (tokensOf source).2 = []) : Reading source (.ok t)
  | token {t : Token} (h : FirstBad (tokensOf source).1 t) :
      Reading source (.error (.unexpectedToken t))
  | character {taken rest : List Char} {c : Char} (hviable : Viable (tokensOf source).1)
      (hsource : source = taken ++ c :: rest) (hleft : (tokensOf source).2 = c :: rest) :
      Reading source (.error (.unexpectedCharacter c (Position.start.after taken)
        (SyntaxError.contextBefore taken) (SyntaxError.contextAfter (c :: rest))))
  | fin (hviable : Viable (tokensOf source).1) (hprogram : ¬ IsProgram (tokensOf source).1)
      (hleft : (tokensOf source).2 = []) : Reading source (.error .unexpectedEnd)

theorem reading_endError {source : List Char} (hviable : Viable (tokensOf source).1)
    (hend : (tokensOf source).2 = [] → ¬ IsProgram (tokensOf source).1) :
    Reading source (.error (endError source (tokensOf source).2)) := by
  cases hleft : (tokensOf source).2 with
  | nil => exact .fin hviable (hend hleft) hleft
  | cons c rest =>
      obtain ⟨taken, hsource, herror⟩ := endError_left hleft
      rw [herror]
      exact .character hviable hsource hleft

theorem reading_read (source : List Char) : Reading source (read source) := by
  have hts := genuine_tokensOf source
  unfold read
  dsimp only
  cases h : Phrase.program (tokensOf source).1 with
  | ok t =>
      have hprogram := (Phrase.program_iff_isProgram hts).1 ⟨t, h⟩
      split
      · rename_i hok hleft
        cases hok
        exact .program h hleft
      · rename_i hok hleft
        exact reading_endError hprogram.viable fun hnil => absurd hnil (by simpa using hleft)
      all_goals rename_i herror; cases herror
  | error rest =>
      cases rest with
      | cons t behind => exact .token (Phrase.firstBad_of_program hts h)
      | nil =>
          obtain ⟨hviable, hprogram⟩ := Phrase.viable_of_program hts h
          exact reading_endError hviable fun _ => hprogram

/-- A text that is cut into tokens up to its end is a program exactly when its tokens are one, and
its tree is the normalized tree of a derivation. -/
theorem read_iff_isProgram {source : List Char} {ts : List Token} (h : tokensOf source = (ts, [])) :
    ((∃ t, read source = .ok t) ↔ IsProgram ts) ∧
      ∀ t, read source = .ok t → ∃ m, Reads .start ts m ∧ t.toNode = m.normalize := by
  obtain rfl : ts = (tokensOf source).1 := by rw [h]
  have hleft : (tokensOf source).2 = [] := by rw [h]
  have hts := genuine_tokensOf source
  have htree (t : Term) (ht : read source = .ok t) :
      ∃ m, Reads .start (tokensOf source).1 m ∧ t.toNode = m.normalize := by
    have hreading := reading_read source
    rw [ht] at hreading
    cases hreading with
    | program hok _ => exact Phrase.reads_of_program hts hok
  refine ⟨⟨?_, ?_⟩, htree⟩
  · rintro ⟨t, ht⟩
    obtain ⟨m, hm, -⟩ := htree t ht
    exact ⟨m, hm⟩
  · intro hprogram
    obtain ⟨t, ht⟩ := (Phrase.program_iff_isProgram hts).2 hprogram
    exact ⟨t, read_of_ok ht hleft⟩

/-- The tokens of an arrow with an empty pair of braces. -/
def bareArrow : List Token :=
  [⟨.name, "x", ⟨1, 1⟩⟩, ⟨.arrow, "=>", ⟨1, 2⟩⟩, ⟨.lbrace, "\x7b", ⟨1, 4⟩⟩,
    ⟨.rbrace, "\x7d", ⟨1, 5⟩⟩]

/-- The program that the arrow is if its braces are `body`. -/
def bareArrowTree (body : Node) : Node :=
  .tree "program" (some ⟨1, 1⟩) [.tree "expr_stmt" (some ⟨1, 1⟩) [.tree "arrow" (some ⟨1, 1⟩)
    [.tree "params" (some ⟨1, 1⟩) [bindTree ⟨.name, "x", ⟨1, 1⟩⟩], body]]]

theorem tokensOf_bareArrow : tokensOf "x=>\x7b\x7d".toList = (bareArrow, []) := by
  decide +kernel

theorem produces_bareArrow {body : Node}
    (h : Produces .body (bareArrow.drop 2) [body]) :
    Produces (.one .start) bareArrow [bareArrowTree body] := by
  have hname : Token.Is ⟨.name, "x", ⟨1, 1⟩⟩ .name := ⟨rfl, ⟨by decide, [], by decide⟩, by decide⟩
  have harrow : Token.Is ⟨.arrow, "=>", ⟨1, 2⟩⟩ .arrow := ⟨rfl, by decide, [], by decide⟩
  exact .start (.statementsLast (.expressionStatement (.expressionArrow
    (.arrowName hname harrow h))))

theorem reads_bareArrow :
    (∃ m, Reads .start bareArrow m ∧
      m.normalize = bareArrowTree (.tree "block" (some ⟨1, 4⟩) [])) ∧
    ∃ m, Reads .start bareArrow m ∧
      m.normalize = bareArrowTree (.tree "object" (some ⟨1, 4⟩) []) := by
  have ho : Token.Is ⟨.lbrace, "\x7b", ⟨1, 4⟩⟩ .lbrace := ⟨rfl, by decide, [], by decide⟩
  have hc : Token.Is ⟨.rbrace, "\x7d", ⟨1, 5⟩⟩ .rbrace := ⟨rfl, by decide, [], by decide⟩
  have block := produces_bareArrow (.bodyBlock (.block ho .statementsNil hc))
  have record := produces_bareArrow
    (.bodyExpression (Phrase.writes_expression (.primaryObject (.object ho .listNil hc))))
  obtain ⟨m, hm, hblock⟩ := (reads_iff_produces (by simp)).2 block
  obtain ⟨m', hm', hrecord⟩ := (reads_iff_produces (by simp)).2 record
  exact ⟨⟨m, hm, hblock.symm⟩, m', hm', hrecord.symm⟩

/-- An arrow with an empty pair of braces is a program. -/
theorem read_iff_isProgram_bareArrow :
    tokensOf "x=>\x7b\x7d".toList = (bareArrow, []) ∧ IsProgram bareArrow ∧
      ∃ t, read "x=>\x7b\x7d".toList = .ok t := by
  obtain ⟨⟨m, hm, -⟩, -⟩ := reads_bareArrow
  exact ⟨tokensOf_bareArrow, ⟨m, hm⟩, (read_iff_isProgram tokensOf_bareArrow).1.2 ⟨m, hm⟩⟩

/-- The grammar is unambiguous but for arrow bodies that are a pair of braces, empty or with a
name: two trees of the same tokens differ only there.  The tree that is read is that of a
derivation and has a block wherever any derivation has one in the place of a record. -/
theorem read_prefers_blocks (ts : List Token) :
    (∀ m m', Reads .start ts m → Reads .start ts m' → Alike m.normalize m'.normalize) ∧
      (IsProgram ts → ∃ t, Phrase.program ts = .ok t ∧
        (∀ source, tokensOf source = (ts, []) → read source = .ok t) ∧
        (∃ m, Reads .start ts m ∧ t.toNode = m.normalize) ∧
        ∀ m, Reads .start ts m → Prefers t.toNode m.normalize) := by
  have hprefers {t : Term} {m : Node} (ht : Phrase.program ts = .ok t) (hm : Reads .start ts m) :
      Prefers t.toNode m.normalize := by
    obtain ⟨u, hu, hprefers⟩ := Phrase.program_of_reads hm
    obtain rfl : t = u := by simpa [ht] using hu
    exact hprefers
  refine ⟨fun m m' hm hm' => ?_, fun hprogram => ?_⟩
  · obtain ⟨t, ht, hprefer⟩ := Phrase.program_of_reads hm
    exact alike_of_prefers hprefer (hprefers ht hm')
  · have hts := Phrase.genuine_of_isProgram hprogram
    obtain ⟨t, ht⟩ := (Phrase.program_iff_isProgram hts).2 hprogram
    refine ⟨t, ht, fun source hsource => ?_, Phrase.reads_of_program hts ht,
      fun m hm => hprefers ht hm⟩
    exact read_of_ok (by rw [hsource]; exact ht) (by rw [hsource])

/-- An empty pair of braces behind an arrow has both readings, and the block is taken. -/
theorem read_prefers_blocks_bareArrow :
    (∃ m m', Reads .start bareArrow m ∧ Reads .start bareArrow m' ∧ m.normalize ≠ m'.normalize ∧
        Alike m.normalize m'.normalize) ∧
      ∃ t, read "x=>\x7b\x7d".toList = .ok t ∧
        Prefers t.toNode (bareArrowTree (.tree "object" (some ⟨1, 4⟩) [])) := by
  obtain ⟨⟨m, hm, hblock⟩, m', hm', hrecord⟩ := reads_bareArrow
  obtain ⟨halike, hread⟩ := read_prefers_blocks bareArrow
  obtain ⟨t, -, hsource, -, hprefers⟩ := hread ⟨m, hm⟩
  refine ⟨⟨m, m', hm, hm', ?_, halike m m' hm hm'⟩, t, hsource _ tokensOf_bareArrow, ?_⟩
  · rw [hblock, hrecord]
    simp [bareArrowTree]
  · rw [← hrecord]
    exact hprefers m' hm'

/-- A text is refused at the first token with which no program can go on.  If there is none, it is
refused at the first character with which no terminal starts, and if there is none either, at the
end, where a program could have gone on. -/
theorem read_refuses_at_earliest (source : List Char) :
    (∀ t, read source = .error (.unexpectedToken t) ↔ FirstBad (tokensOf source).1 t) ∧
      (∀ c p before after, read source = .error (.unexpectedCharacter c p before after) ↔
        ∃ taken rest, source = taken ++ c :: rest ∧ (tokensOf source).2 = c :: rest ∧
          p = Position.start.after taken ∧ before = SyntaxError.contextBefore taken ∧
          after = SyntaxError.contextAfter (c :: rest) ∧
          (∀ terminal : Terminal, terminal.matchLength (c :: rest) = 0) ∧
          Viable (tokensOf source).1) ∧
      (read source = .error .unexpectedEnd ↔
        (tokensOf source).2 = [] ∧ Viable (tokensOf source).1 ∧
          ¬ IsProgram (tokensOf source).1) := by
  have hreading := reading_read source
  refine ⟨fun t => ⟨fun h => ?_, fun h => ?_⟩, fun c p before after => ⟨fun h => ?_, ?_⟩,
    fun h => ?_, ?_⟩
  · rw [h] at hreading
    cases hreading with
    | token hbad => exact hbad
  · generalize read source = o at hreading ⊢
    cases hreading with
    | program hok _ =>
        have hprogram := (Phrase.program_iff_isProgram (genuine_tokensOf source)).1 ⟨_, hok⟩
        exact absurd hprogram.viable h.not_viable
    | token hbad => rw [hbad.unique h]
    | character hviable => exact absurd hviable h.not_viable
    | fin hviable => exact absurd hviable h.not_viable
  · rw [h] at hreading
    cases hreading with
    | character hviable hsource hleft =>
        exact ⟨_, _, hsource, hleft, rfl, rfl, rfl, matchLength_left hleft, hviable⟩
  · rintro ⟨taken, rest, hsource, hleft, rfl, rfl, rfl, -, hviable⟩
    generalize read source = o at hreading ⊢
    cases hreading with
    | program _ hnil => simp [hnil] at hleft
    | token hbad => exact absurd hviable hbad.not_viable
    | character _ hsource' hleft' =>
        obtain ⟨rfl, rfl⟩ := List.cons.inj (hleft.symm.trans hleft')
        rw [List.append_cancel_right (hsource.symm.trans hsource')]
    | fin _ _ hnil => simp [hnil] at hleft
  · rw [h] at hreading
    cases hreading with
    | fin hviable hprogram hleft => exact ⟨hleft, hviable, hprogram⟩
  · rintro ⟨hleft, hviable, hprogram⟩
    generalize read source = o at hreading ⊢
    cases hreading with
    | program hok _ =>
        exact absurd ((Phrase.program_iff_isProgram (genuine_tokensOf source)).1 ⟨_, hok⟩) hprogram
    | token hbad => exact absurd hviable hbad.not_viable
    | character _ _ hcons => simp [hleft] at hcons
    | fin => rfl

end Program

end VariantScript.Syntax
