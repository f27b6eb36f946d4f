import VariantScript.Evaluation.Binding
import VariantScript.Syntax.Lexeme

/-!
# Quoted strings are read back

The written form of a text is one token of the grammar, whatever stands behind it, and the text that
this token denotes is the one that was written.  Characters are written in one of three ways, so both
facts are inductions on the text with three cases for its first character.
-/

namespace VariantScript.Text.Quoted

open Syntax.Terminal (closingDistance stringLength)

/-! ## The written form of a character -/

/-- How a character can be written: by a letter behind a backslash, by the digits of a code unit
below the blank, or by itself. -/
inductive IsWrittenAs (c : Char) : List Char → Prop where
  | letter {e : Char} (he : escape? e = some c) : IsWrittenAs c ['\\', e]
  | unit {x y z w : Char} (hunit : unit? x y z w = some c.toNat) (hcontrol : c.toNat < 0x20) :
      IsWrittenAs c ['\\', 'u', x, y, z, w]
  | plain (hquote : c ≠ '"') (hbackslash : c ≠ '\\') (hcontrol : 0x20 ≤ c.toNat) : IsWrittenAs c [c]

/-- The four digits of a code unit below the blank name it. -/
theorem unit?_hexDigits {n : Nat} (h : n < 0x20) :
    ∃ x y z w, hexDigits 4 n = [x, y, z, w] ∧ unit? x y z w = some n := by
  have hall : ∀ n < 0x20, hexDigits 4 n = ['0', '0', Nat.digitChar (n / 16), Nat.digitChar (n % 16)] ∧
      unit? '0' '0' (Nat.digitChar (n / 16)) (Nat.digitChar (n % 16)) = some n := by decide
  exact ⟨_, _, _, _, hall n h⟩

theorem isWrittenAs_encodeChar (c : Char) : IsWrittenAs c (encodeChar c) := by
  unfold encodeChar
  split
  · subst c
    exact .letter rfl
  · split
    · subst c
      exact .letter rfl
    · rename_i hquote hbackslash
      -- The letters of the other escapes, one by one; what is left is a code unit or plain.
      split
      · subst c
        exact .letter rfl
      split
      · subst c
        exact .letter rfl
      split
      · subst c
        exact .letter rfl
      split
      · subst c
        exact .letter rfl
      split
      · subst c
        exact .letter rfl
      split
      · rename_i hcontrol
        obtain ⟨x, y, z, w, hdigits, hunit⟩ := unit?_hexDigits hcontrol
        rw [hdigits]
        exact .unit hunit hcontrol
      · rename_i hcontrol
        exact .plain hquote hbackslash (Nat.le_of_not_lt hcontrol)

/-! ## Reading back -/

theorem decodeBody_letter {e c : Char} (he : escape? e = some c) (rest : List Char) :
    decodeBody ('\\' :: e :: rest) = consChar c (decodeBody rest) := by
  have hu : e ≠ 'u' := by
    rintro rfl
    cases he
  rw [decodeBody, he]
  · intros
    exact hu ‹_›
  · intros
    exact hu ‹_›

theorem decodeBody_plain {c : Char} (hquote : c ≠ '"') (hbackslash : c ≠ '\\')
    (hcontrol : 0x20 ≤ c.toNat) (rest : List Char) :
    decodeBody (c :: rest) = consChar c (decodeBody rest) := by
  rw [decodeBody, if_neg (Nat.not_lt.2 hcontrol)]
  · exact hquote
  all_goals
    intros
    exact hbackslash ‹_›

/-- What starts with a code unit is read only if its digits name one. -/
theorem exists_unit_of_decodeBody {x y z w : Char} {rest : List Char} {r : List Char × List Char}
    (h : decodeBody ('\\' :: 'u' :: x :: y :: z :: w :: rest) = some r) :
    ∃ u, unit? x y z w = some u := by
  cases hunit : unit? x y z w with
  | some u => exact ⟨u, rfl⟩
  | none =>
      by_cases hpair : ∃ a b c d more, rest = '\\' :: 'u' :: a :: b :: c :: d :: more
      · obtain ⟨a, b, c, d, more, rfl⟩ := hpair
        rw [decodeBody, hunit] at h
        cases h
      · rw [decodeBody, hunit] at h
        · cases h
        · exact fun a b c d more hrest => hpair ⟨a, b, c, d, more, hrest⟩

/-- A code unit that starts no pair is read as its character, also if another one follows. -/
theorem decodeBody_unit {x y z w : Char} {u : Nat} {rest : List Char} {r : List Char × List Char}
    (hunit : unit? x y z w = some u) (hhigh : isHighSurrogate u = false)
    (hrest : decodeBody rest = some r) :
    decodeBody ('\\' :: 'u' :: x :: y :: z :: w :: rest) = consChar (unitChar u) (some r) := by
  by_cases hpair : ∃ a b c d more, rest = '\\' :: 'u' :: a :: b :: c :: d :: more
  · obtain ⟨a, b, c, d, more, rfl⟩ := hpair
    -- That the second unit has a value is known from the reading behind the first one.
    obtain ⟨low, hlow⟩ := exists_unit_of_decodeBody hrest
    rw [decodeBody, hunit, hlow]
    simp [hhigh, hrest]
  · rw [decodeBody, hunit, hrest]
    exact fun a b c d more hrest => hpair ⟨a, b, c, d, more, hrest⟩

theorem unitChar_toNat {c : Char} (h : c.toNat < 0x20) :
    isHighSurrogate c.toNat = false ∧ unitChar c.toNat = c := by
  have hhigh : isHighSurrogate c.toNat = false := by simp [isHighSurrogate]; omega
  have hlow : isLowSurrogate c.toNat = false := by simp [isLowSurrogate]; omega
  exact ⟨hhigh, by simp [unitChar, hhigh, hlow]⟩

/-- The written characters are read up to the closing quote. -/
theorem decodeBody_flatMap (cs rest : List Char) :
    decodeBody (cs.flatMap encodeChar ++ '"' :: rest) = some (cs, rest) := by
  induction cs with
  | nil => rw [List.flatMap_nil, List.nil_append, decodeBody]
  | cons c cs ih =>
      have hc := isWrittenAs_encodeChar c
      rw [List.flatMap_cons, List.append_assoc]
      generalize cs.flatMap encodeChar ++ '"' :: rest = tail at ih ⊢
      generalize encodeChar c = written at hc ⊢
      cases hc with
      | letter he => exact (decodeBody_letter he tail).trans (by rw [ih]; rfl)
      | unit hunit hcontrol =>
          obtain ⟨hhigh, hchar⟩ := unitChar_toNat hcontrol
          exact (decodeBody_unit hunit hhigh ih).trans (by rw [hchar]; rfl)
      | plain hquote hbackslash hcontrol =>
          exact (decodeBody_plain hquote hbackslash hcontrol tail).trans (by rw [ih]; rfl)

/-- The text that was written is the text that is denoted. -/
theorem decode?_encode (cs : List Char) : decode? (encode cs) = some cs := by
  have hbody := decodeBody_flatMap cs []
  have hblanks : (encode cs).dropWhile isOuterBlank = encode cs := rfl
  unfold decode?
  rw [hblanks, encode]
  simp [hbody]

/-! ## One token -/

/-- Characters behind which a quote or a backslash counts as before. -/
theorem closingDistance_plain {cs : List Char}
    (h : ∀ c ∈ cs, c ≠ '\n' ∧ c ≠ '"' ∧ c ≠ '\\') (rest : List Char) :
    closingDistance false (cs ++ rest) = (closingDistance false rest).map (· + cs.length) := by
  induction cs with
  | nil => simp
  | cons c cs ih =>
      obtain ⟨hline, hquote, hbackslash⟩ := h c (.head _)
      rw [List.cons_append, closingDistance, if_neg hline, if_neg (fun hc => hquote hc.1)]
      have hescaped : (decide (c = '\\') && !false) = false := by simp [hbackslash]
      rw [hescaped, ih fun c hc => h c (.tail _ hc), Option.map_map, List.length_cons]
      rfl

/-- A backslash and the character behind it, whichever it is, do not close a string. -/
theorem closingDistance_escape {e : Char} (hline : e ≠ '\n') (rest : List Char) :
    closingDistance false ('\\' :: e :: rest) = (closingDistance false rest).map (· + 2) := by
  have hbackslash : closingDistance false ('\\' :: e :: rest) =
      (closingDistance true (e :: rest)).map (· + 1) := by
    simp [closingDistance]
  have hescaped : closingDistance true (e :: rest) = (closingDistance false rest).map (· + 1) := by
    simp [closingDistance, hline]
  rw [hbackslash, hescaped, Option.map_map]
  rfl

theorem hexDigit_ne {c : Char} {n : Nat} (h : hexValue? c = some n) :
    c ≠ '\n' ∧ c ≠ '"' ∧ c ≠ '\\' := by
  refine ⟨?_, ?_, ?_⟩ <;> rintro rfl <;> cases h

theorem unit_digits_ne {x y z w : Char} {u : Nat} (h : unit? x y z w = some u) :
    ∀ c ∈ [x, y, z, w], c ≠ '\n' ∧ c ≠ '"' ∧ c ≠ '\\' := by
  unfold unit? at h
  simp only [Option.bind_eq_bind, Option.bind_eq_some_iff] at h
  obtain ⟨a, hx, b, hy, c, hz, d, hw, -⟩ := h
  simp [hexDigit_ne hx, hexDigit_ne hy, hexDigit_ne hz, hexDigit_ne hw]

/-- The closing quote is found behind the written characters. -/
theorem closingDistance_flatMap (cs rest : List Char) :
    closingDistance false (cs.flatMap encodeChar ++ '"' :: rest) =
      some ((cs.flatMap encodeChar).length + 1) := by
  induction cs with
  | nil => simp [closingDistance]
  | cons c cs ih =>
      have hc := isWrittenAs_encodeChar c
      rw [List.flatMap_cons, List.append_assoc, List.length_append]
      generalize cs.flatMap encodeChar ++ '"' :: rest = tail at ih ⊢
      generalize encodeChar c = written at hc ⊢
      -- Each written form moves the closing quote on by its own length.
      have hlength : closingDistance false (written ++ tail) =
          (closingDistance false tail).map (· + written.length) := by
        cases hc with
        | @letter e he =>
            have hline : e ≠ '\n' := by
              rintro rfl
              cases he
            exact closingDistance_escape hline tail
        | @unit x y z w hunit hcontrol =>
            have hdigits := closingDistance_plain (unit_digits_ne hunit) tail
            have hescape := closingDistance_escape (show 'u' ≠ '\n' by decide) ([x, y, z, w] ++ tail)
            rw [hdigits, Option.map_map] at hescape
            exact hescape
        | plain hquote hbackslash hcontrol =>
            have hline : c ≠ '\n' := by
              rintro rfl
              exact absurd hcontrol (by decide)
            exact closingDistance_plain (by simp [hline, hquote, hbackslash]) tail
      rw [hlength, ih, Option.map_some]
      congr 1
      omega

/-- The written form of a text is taken as one string, whatever stands behind it. -/
theorem stringLength_encode (cs rest : List Char) :
    stringLength (encode cs ++ rest) = (encode cs).length := by
  have hclosing := closingDistance_flatMap cs rest
  simp [encode, stringLength, hclosing]

end VariantScript.Text.Quoted
