import VariantScript.Proofs.Grammar.Genuine
import VariantScript.Syntax.Program

/-!
# Source texts

The lexemes of a text and what is left make up the text, a text is left only from a place on where
no terminal matches, and the tokens among the lexemes are instances of their kinds.
-/

namespace VariantScript.Syntax

namespace Terminal

/-! ## A terminal matches no more than there is -/

theorem digitsLength_le (cs : List Char) : digitsLength cs ≤ cs.length :=
  (List.takeWhile_prefix _).length_le

theorem exponentLength_le (cs : List Char) : exponentLength cs ≤ cs.length := by
  cases cs with
  | nil => exact Nat.le_refl 0
  | cons c rest =>
      cases rest with
      | nil => simp [exponentLength]
      | cons s digits =>
          have hdigits := digitsLength_le digits
          have hall := digitsLength_le (s :: digits)
          simp only [List.length_cons] at hall ⊢
          unfold exponentLength
          dsimp only
          split <;> try split <;> try split
          all_goals omega

theorem numberLength_le (cs : List Char) : numberLength cs ≤ cs.length := by
  have hwhole := digitsLength_le cs
  have hrest : (cs.drop (digitsLength cs)).length = cs.length - digitsLength cs := List.length_drop
  have hexponent := exponentLength_le (cs.drop (digitsLength cs))
  unfold numberLength
  dsimp only
  split
  · omega
  · split
    · rename_i fraction hfraction
      have hpart := digitsLength_le fraction
      have hend := exponentLength_le (fraction.drop (digitsLength fraction))
      rw [List.length_drop] at hend
      rw [hfraction, List.length_cons] at hrest
      split <;> omega
    · exact hwhole

theorem nameLength_le (cs : List Char) : nameLength cs ≤ cs.length := by
  cases cs with
  | nil => exact Nat.le_refl 0
  | cons c rest =>
      have hrest := (rest.takeWhile_prefix isNamePart).length_le
      simp only [nameLength, List.length_cons]
      split <;> omega

theorem closingDistance_le {escaped : Bool} {cs : List Char} {n : Nat}
    (h : closingDistance escaped cs = some n) : n ≤ cs.length := by
  induction cs generalizing escaped n with
  | nil => cases h
  | cons c rest ih =>
      unfold closingDistance at h
      split at h
      · cases h
      · split at h
        · cases h
          simp
        · obtain ⟨m, hm, rfl⟩ := Option.map_eq_some_iff.1 h
          simpa using ih hm

theorem stringLength_le (cs : List Char) : stringLength cs ≤ cs.length := by
  unfold stringLength
  split
  · rename_i rest
    cases h : closingDistance false rest with
    | none => exact Nat.zero_le _
    | some n => simpa using closingDistance_le h
  · exact Nat.zero_le _

theorem commentEndDistance_le {cs : List Char} {n : Nat} (h : commentEndDistance cs = some n) :
    n ≤ cs.length := by
  induction cs generalizing n with
  | nil => cases h
  | cons c rest ih =>
      unfold commentEndDistance at h
      split at h
      · rename_i heq
        cases h
        simp [heq]
      · rename_i heq
        obtain ⟨rfl, rfl⟩ := List.cons.inj heq
        obtain ⟨m, hm, rfl⟩ := Option.map_eq_some_iff.1 h
        simpa using ih hm
      · cases h

theorem blockCommentLength_le (cs : List Char) : blockCommentLength cs ≤ cs.length := by
  unfold blockCommentLength
  split
  · rename_i rest
    cases h : commentEndDistance rest with
    | none => exact Nat.zero_le _
    | some n => simpa using commentEndDistance_le h
  · exact Nat.zero_le _

theorem lineCommentLength_le (cs : List Char) : lineCommentLength cs ≤ cs.length := by
  unfold lineCommentLength
  split
  · rename_i rest
    have hrest := (rest.takeWhile_prefix (· ≠ '\n')).length_le
    simp only [List.length_cons]
    omega
  · exact Nat.zero_le _

theorem markLength_le (marks : List (List Char)) (cs : List Char) :
    markLength marks cs ≤ cs.length := by
  unfold markLength
  cases h : marks.find? fun mark => mark.isPrefixOf cs with
  | none => exact Nat.zero_le _
  | some mark =>
      have hprefix : mark <+: cs := by simpa using List.find?_some h
      exact hprefix.length_le

theorem matchLength_le (t : Terminal) (cs : List Char) : t.matchLength cs ≤ cs.length := by
  cases t with
  | token kind =>
      cases kind with
      | number => exact numberLength_le cs
      | name => exact nameLength_le cs
      | string => exact stringLength_le cs
      | _ => exact markLength_le _ cs
  | blanks => exact (List.takeWhile_prefix _).length_le
  | lineComment => exact lineCommentLength_le cs
  | blockComment => exact blockCommentLength_le cs

/-! ## What a match starts with -/

section

variable {c : Char} {cs : List Char}

theorem toNat_of_isDigit (h : c.isDigit = true) : 0x30 ≤ c.toNat ∧ c.toNat ≤ 0x39 :=
  Char.isDigit_iff_toNat.1 h

/-- A name starts with a letter or with one of two signs. -/
theorem toNat_of_isNameStart (h : isNameStart c = true) :
    (0x41 ≤ c.toNat ∧ c.toNat ≤ 0x5a ∨ 0x61 ≤ c.toNat ∧ c.toNat ≤ 0x7a) ∨ c = '_' ∨ c = '$' := by
  simp only [isNameStart, Bool.or_eq_true, decide_eq_true_eq] at h
  rcases h with (hletter | rfl) | rfl
  · refine .inl ?_
    rcases Bool.or_eq_true_iff.1 hletter with hupper | hlower
    · exact .inl (of_decide_eq_true hupper)
    · obtain ⟨hleast, hmost⟩ := Bool.and_eq_true_iff.1 hlower
      exact .inr ⟨of_decide_eq_true hleast, of_decide_eq_true hmost⟩
  · exact .inr (.inl rfl)
  · exact .inr (.inr rfl)

theorem first_of_number (h : numberLength (c :: cs) ≠ 0) : c.isDigit = true ∨ c = '.' := by
  by_cases hdigit : c.isDigit = true
  · exact .inl hdigit
  · have hwhole : digitsLength (c :: cs) = 0 := by simp [digitsLength, hdigit]
    unfold numberLength at h
    rw [hwhole] at h
    by_cases hpoint : c = '.'
    · exact .inr hpoint
    · exact absurd (by simp [hpoint]) h

theorem first_of_name (h : nameLength (c :: cs) ≠ 0) : isNameStart c = true := by
  unfold nameLength at h
  exact Decidable.byContradiction fun hnone => h (if_neg hnone)

theorem first_of_string (h : stringLength (c :: cs) ≠ 0) : c = '"' := by
  refine Decidable.byContradiction fun hnone => h ?_
  simp [stringLength, hnone]

theorem exists_mark {marks : List (List Char)} (h : markLength marks cs ≠ 0) :
    ∃ mark ∈ marks, mark <+: cs := by
  unfold markLength at h
  cases hfind : marks.find? fun mark => mark.isPrefixOf cs with
  | none => exact absurd (by rw [hfind]; rfl) h
  | some mark =>
      exact ⟨mark, List.mem_of_find?_eq_some hfind, by simpa using List.find?_some hfind⟩

theorem prefix_of_lineComment (h : lineCommentLength cs ≠ 0) : ['/', '/'] <+: cs := by
  unfold lineCommentLength at h
  split at h
  · exact List.prefix_append ['/', '/'] _
  · exact absurd rfl h

theorem prefix_of_blockComment (h : blockCommentLength cs ≠ 0) : ['/', '*'] <+: cs := by
  unfold blockCommentLength at h
  split at h
  · exact List.prefix_append ['/', '*'] _
  · exact absurd rfl h

end

/-! ## Cutting -/

/-- What is cut off is what the terminal takes. -/
theorem takes_of_cut {t : Terminal} {cs : List Char} {c : Cut cs} (h : t.cut? cs = some c) :
    c.terminal = t ∧ t.Takes c.text := by
  unfold cut? at h
  split at h
  · cases h
    refine ⟨rfl, Cut.text_ne _, cs.drop (t.matchLength cs), ?_⟩
    rw [List.take_append_drop, List.length_take, Nat.min_eq_left (matchLength_le t cs)]
  · cases h

/-- The terminals that are tried are all that match anything. -/
theorem mem_order_or_never (t : Terminal) : t ∈ order ∨ ∀ cs, t.matchLength cs = 0 := by
  cases t with
  | token kind =>
      cases kind with
      | keyword word => exact Or.inr fun cs => rfl
      | _ => exact Or.inl (by decide)
  | _ => exact Or.inl (by decide)

/-- Where nothing is cut off although there is text, no terminal matches. -/
theorem matchLength_of_nextCut_none {cs : List Char} (hne : cs ≠ []) (h : nextCut? cs = none)
    (t : Terminal) : t.matchLength cs = 0 := by
  rcases mem_order_or_never t with ht | ht
  · have hcut := List.findSome?_eq_none_iff.1 h t ht
    unfold cut? at hcut
    split at hcut
    · cases hcut
    · rename_i hmatch
      exact Nat.eq_zero_of_not_pos fun hpos => hmatch ⟨hpos, hne⟩
  · exact ht cs

end Terminal

/-! ## Lexemes -/

theorem takes_of_nextCut {cs : List Char} {c : Cut cs} (h : nextCut? cs = some c) :
    c.terminal.Takes c.text := by
  obtain ⟨t, -, hcut⟩ := List.exists_of_findSome?_eq_some h
  obtain ⟨rfl, htakes⟩ := Terminal.takes_of_cut hcut
  exact htakes

namespace Lexeme

/-- Lexemes that are cut from what stands at their place. -/
def AllTake (ls : List Lexeme) : Prop :=
  ∀ l ∈ ls, l.terminal.Takes l.text

theorem ofText_none {cs : List Char} (h : nextCut? cs = none) : ofText cs = ([], cs) := by
  unfold ofText
  rw [h]

theorem ofText_some {cs : List Char} {c : Cut cs} (h : nextCut? cs = some c) :
    ofText cs = (⟨c.terminal, c.text⟩ :: (ofText c.rest).1, (ofText c.rest).2) := by
  rw [ofText, h]

theorem joined_ofText (cs : List Char) : joined (ofText cs).1 ++ (ofText cs).2 = cs := by
  cases h : nextCut? cs with
  | none => rw [ofText_none h]; rfl
  | some c =>
      have hrest := joined_ofText c.rest
      rw [ofText_some h]
      -- What is cut off and what remains make up the text at each cut.
      calc
        c.text ++ joined (ofText c.rest).1 ++ (ofText c.rest).2
          = c.text ++ (joined (ofText c.rest).1 ++ (ofText c.rest).2) := List.append_assoc ..
        _ = c.text ++ c.rest := by rw [hrest]
        _ = cs := c.text_append
termination_by cs.length
decreasing_by exact c.rest_lt

theorem nextCut_left (cs : List Char) : nextCut? (ofText cs).2 = none := by
  cases h : nextCut? cs with
  | none => rw [ofText_none h]; exact h
  | some c => rw [ofText_some h]; exact nextCut_left c.rest
termination_by cs.length
decreasing_by exact c.rest_lt

theorem allTake_ofText (cs : List Char) : AllTake (ofText cs).1 := by
  cases h : nextCut? cs with
  | none => rw [ofText_none h]; simp [AllTake]
  | some c =>
      rw [ofText_some h]
      intro l hl
      rcases List.mem_cons.1 hl with rfl | hl
      · exact takes_of_nextCut h
      · exact allTake_ofText c.rest l hl
termination_by cs.length
decreasing_by exact c.rest_lt

/-- The token that a lexeme is. -/
theorem isGenuine_token {l : Lexeme} {p : Position} {t : Token}
    (hl : l.terminal.Takes l.text) (h : l.token? p = some t) : t.IsGenuine := by
  unfold token? at h
  split at h
  · rename_i hname
    rw [hname] at hl
    dsimp only at h
    split at h
    · rename_i word hword
      cases h
      unfold Keyword.ofSpelling? at hword
      have hspelling := List.find?_some hword
      exact (beq_iff_eq.1 hspelling).symm
    · rename_i hword
      cases h
      exact ⟨by simpa using hl, hword⟩
  · rename_i kind hne htoken
    cases h
    rw [htoken] at hl
    cases kind with
    | name => exact absurd rfl hne
    -- Words are matched as names, never on their own.
    | keyword word =>
        obtain ⟨hfilled, rest, hmatch⟩ := hl
        exact absurd (List.length_eq_zero_iff.1 hmatch.symm) hfilled
    | _ => simpa [Token.IsGenuine] using hl
  · cases h

theorem genuine_tokens {ls : List Lexeme} (h : AllTake ls) (p : Position) :
    Genuine (tokens p ls) := by
  induction ls generalizing p with
  | nil => exact genuine_nil
  | cons l ls ih =>
      have hrest : AllTake ls := fun l hl => h l (.tail _ hl)
      unfold tokens
      split
      · rename_i t ht
        exact genuine_cons.2 ⟨isGenuine_token (h l (.head _)) ht, ih hrest _⟩
      · exact ih hrest _

end Lexeme

/-! ## Tokens -/

theorem genuine_tokensOf (source : List Char) : Genuine (tokensOf source).1 :=
  Lexeme.genuine_tokens (Lexeme.allTake_ofText source) .start

/-- The lexemes that the tokens of a text are among, and what is left, make up the text. -/
theorem joined_append_left (source : List Char) :
    Lexeme.joined (Lexeme.ofText source).1 ++ (tokensOf source).2 = source :=
  Lexeme.joined_ofText source

/-- No terminal matches what is left of a text. -/
theorem matchLength_left {source : List Char} {c : Char} {rest : List Char}
    (h : (tokensOf source).2 = c :: rest) (t : Terminal) : t.matchLength (c :: rest) = 0 := by
  have hcut := Lexeme.nextCut_left source
  change nextCut? (tokensOf source).2 = none at hcut
  rw [h] at hcut
  exact Terminal.matchLength_of_nextCut_none (by simp) hcut t

theorem endError_append (taken : List Char) (c : Char) (rest : List Char) :
    endError (taken ++ c :: rest) (c :: rest) =
      .unexpectedCharacter c (Position.start.after taken) (SyntaxError.contextBefore taken)
        (SyntaxError.contextAfter (c :: rest)) := by
  unfold endError
  dsimp only
  rw [List.length_append, Nat.add_sub_cancel, List.take_left]

/-- The error where the tokens end points behind the lexemes. -/
theorem endError_left {source : List Char} {c : Char} {rest : List Char}
    (h : (tokensOf source).2 = c :: rest) :
    ∃ taken, source = taken ++ c :: rest ∧
      endError source (c :: rest) =
        .unexpectedCharacter c (Position.start.after taken) (SyntaxError.contextBefore taken)
          (SyntaxError.contextAfter (c :: rest)) := by
  have hsource := joined_append_left source
  rw [h] at hsource
  refine ⟨Lexeme.joined (Lexeme.ofText source).1, hsource.symm, ?_⟩
  rw [← endError_append, hsource]

/-- Whether a text is a program can be computed; then it is one. -/
theorem Program.exists_of_isOk {source : List Char} (h : (Program.read source).isOk = true) :
    ∃ t, Program.read source = .ok t := by
  cases hread : Program.read source with
  | ok t => exact ⟨t, rfl⟩
  | error e =>
      rw [hread] at h
      cases h

end VariantScript.Syntax
