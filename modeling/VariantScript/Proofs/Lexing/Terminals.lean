import VariantScript.Proofs.Lexing.Regex

/-!
# The terminals as regular expressions

Every terminal has a regular expression, and how far the terminal matches at the head of a text is how
far its expression does.  Numbers and names take all the digits and letters there are; a string ends
at the first quote that no odd run of backslashes stands in front of, and a block comment at the first
mark that ends one.
-/

namespace VariantScript.Syntax

/-! ## Expressions -/

namespace Regex

/-- Digits. -/
def digits : Regex :=
  atLeastOne (one Char.isDigit)

/-- An exponent with or without a sign. -/
def exponent : Regex :=
  both (either (char 'e') (char 'E')) (both (optional (either (char '+') (char '-'))) digits)

/-- Digits around a point, on one side at least. -/
def decimal : Regex :=
  either (both digits (both (char '.') (optional digits))) (both (char '.') digits)

/-- Digits with an exponent, or a decimal with or without one. -/
def fraction : Regex :=
  either (both digits exponent) (both decimal (optional exponent))

/-- A number. -/
def number : Regex :=
  either fraction digits

/-- A name. -/
def name : Regex :=
  both (one Terminal.isNameStart) (many (one Terminal.isNamePart))

/-- A quote with pairs of backslashes in front of it. -/
def pairsAndQuote : Regex :=
  both (few (chars ['\\', '\\'])) (char '"')

/-- Characters of a line, as few as possible, up to a quote with pairs of backslashes in front of
it, and in front of these something else than a backslash. -/
def toQuote : Regex :=
  both (few (one (· ≠ '\n'))) (both (notBehind '\\') pairsAndQuote)

/-- Characters of a line between quotes. -/
def string : Regex :=
  both (char '"') toQuote

/-- A run of blanks. -/
def blanks : Regex :=
  atLeastOne (one Terminal.isBlank)

/-- A comment that ends with its line. -/
def lineComment : Regex :=
  both (chars ['/', '/']) (many (one (· ≠ '\n')))

/-- A comment that ends with a mark of its own, over as few characters as possible. -/
def blockComment : Regex :=
  both (chars ['/', '*']) (both (few (either (one (· ≠ '\n')) (char '\n'))) (chars ['*', '/']))

end Regex

/-- The regular expression of a terminal.  The reserved words have none of their own. -/
def Terminal.regex : Terminal → Regex
  | .token .number => .number
  | .token .name => .name
  | .token .string => .string
  | .token kind => .firstOf (marks kind)
  | .blanks => .blanks
  | .lineComment => .lineComment
  | .blockComment => .blockComment

/-! ## How far expressions match -/

/-- The place that many characters further on, if they are any. -/
def Place.advance? (n : Nat) (z : Place) : Option Place :=
  if n = 0 then none else some (z.advance n)

namespace Regex

open Terminal

variable {α : Type} {k : Place → Option α} {z : Place} {c : Char} {cs : List Char}

/-! ### Numbers -/

/-- As long as a run goes on, the character ahead belongs to its class. -/
theorem exists_ahead_of_lt_run {p : Char → Bool} {m : Nat} (hm : m < run p cs) :
    ∃ c rest, cs.drop m = c :: rest ∧ p c = true := by
  induction cs generalizing m with
  | nil => exact absurd hm (Nat.not_lt_zero m)
  | cons c cs ih =>
      by_cases hc : p c = true
      · rw [run_cons_of_pos hc] at hm
        cases m with
        | zero => exact ⟨c, cs, rfl, hc⟩
        | succ m => exact ih (by omega)
      · rw [run_cons_of_neg hc] at hm
        exact absurd hm (Nat.not_lt_zero m)

/-- Digits are taken all if what follows does not start with one. -/
theorem followed_digits_of_fails
    (h : ∀ (y : Place) c rest, y.ahead = c :: rest → c.isDigit = true → k y = none) :
    digits.followed k z =
      if digitsLength z.ahead = 0 then none else k (z.advance (digitsLength z.ahead)) := by
  refine followed_atLeastOne (.inr fun m hm => ?_)
  obtain ⟨c, rest, hahead, hc⟩ := exists_ahead_of_lt_run hm
  exact h _ c rest hahead hc

/-- Digits are taken all if what follows always succeeds. -/
theorem followed_digits_of_succeeds (h : ∀ y, (k y).isSome) :
    digits.followed k z =
      if digitsLength z.ahead = 0 then none else k (z.advance (digitsLength z.ahead)) :=
  followed_atLeastOne (.inl (h _))

theorem followed_digits : digits.followed some z = z.advance? (digitsLength z.ahead) :=
  followed_digits_of_succeeds fun _ => rfl

theorem followed_exponent_cons (h : z.ahead = c :: cs) :
    exponent.followed some z =
      if c = 'e' ∨ c = 'E' then
        (optional (either (char '+') (char '-'))).followed (digits.followed some) (z.advance 1)
      else none := by
  rw [exponent, followed_both, followed_either, followed_char_cons h, followed_char_cons h,
    followed_both]
  by_cases hsmall : c = 'e'
  · simp [hsmall]
  · simp [hsmall]

theorem followed_exponent : exponent.followed some z = z.advance? (exponentLength z.ahead) := by
  cases h : z.ahead with
  | nil =>
      rw [exponent, followed_both, followed_either, followed_char_nil h, followed_char_nil h]
      rfl
  | cons c rest =>
      have hrest : (z.advance 1).ahead = rest := by rw [Place.ahead_advance, h]; rfl
      rw [followed_exponent_cons h]
      by_cases hc : c = 'e' ∨ c = 'E'
      · rw [if_pos hc, followed_optional, followed_either, followed_digits, hrest]
        cases rest with
        | nil =>
            rw [followed_char_nil hrest, followed_char_nil hrest]
            simp [exponentLength, digitsLength, Place.advance?]
        | cons s ds =>
            have hds : ((z.advance 1).advance 1).ahead = ds := by
              rw [Place.ahead_advance, hrest]
              rfl
            rw [followed_char_cons hrest, followed_char_cons hrest, followed_digits, hds]
            by_cases hs : s = '+' ∨ s = '-'
            · have hnone : digitsLength (s :: ds) = 0 := by rcases hs with rfl | rfl <;> rfl
              have hlength : exponentLength (c :: s :: ds) =
                  if digitsLength ds = 0 then 0 else digitsLength ds + 2 := by
                simp [exponentLength, hc, hs]
              rw [hlength, hnone]
              by_cases hzero : digitsLength ds = 0
              · simp [hzero, Place.advance?]
              · rcases hs with rfl | rfl <;>
                  simp [hzero, Place.advance?, Place.advance_advance, Nat.add_comm]
            · have hlength : exponentLength (c :: s :: ds) =
                  if digitsLength (s :: ds) = 0 then 0 else digitsLength (s :: ds) + 1 := by
                simp [exponentLength, hc, hs]
              obtain ⟨hplus, hminus⟩ := not_or.1 hs
              rw [hlength, if_neg hplus, if_neg hminus]
              by_cases hzero : digitsLength (s :: ds) = 0
              · simp [hzero, Place.advance?]
              · simp [hzero, Place.advance?, Place.advance_advance, Nat.add_comm]
      · have hlength : exponentLength (c :: rest) = 0 := by simp [exponentLength, hc]
        rw [if_neg hc, hlength]
        rfl

/-- An exponent that is there is taken. -/
theorem followed_optional_exponent :
    (optional exponent).followed some z = some (z.advance (exponentLength z.ahead)) := by
  rw [followed_optional, followed_exponent, Place.advance?]
  by_cases hzero : exponentLength z.ahead = 0 <;> simp [hzero]

/-- What follows a point with or without digits: the digits that there are and an exponent. -/
theorem followed_optional_digits :
    (optional digits).followed ((optional exponent).followed some) z =
      some (z.advance (digitsLength z.ahead +
        exponentLength (z.ahead.drop (digitsLength z.ahead)))) := by
  rw [followed_optional, followed_digits_of_succeeds]
  · rw [followed_optional_exponent, followed_optional_exponent, Place.advance_advance,
      Place.ahead_advance]
    by_cases hzero : digitsLength z.ahead = 0 <;> simp [hzero]
  · intro y
    rw [followed_optional_exponent]
    rfl

/-- A point behind whole digits. -/
theorem followed_point (h : z.ahead = '.' :: cs) :
    (both (char '.') (optional digits)).followed ((optional exponent).followed some) z =
      some (z.advance (1 + digitsLength cs + exponentLength (cs.drop (digitsLength cs)))) := by
  have hrest : (z.advance 1).ahead = cs := by rw [Place.ahead_advance, h]; rfl
  rw [followed_both, followed_char_cons h, if_pos rfl, followed_optional_digits, hrest,
    Place.advance_advance, Nat.add_assoc]

/-- A point without whole digits needs digits behind it. -/
theorem followed_bare_point (h : z.ahead = '.' :: cs) :
    (both (char '.') digits).followed ((optional exponent).followed some) z =
      if digitsLength cs = 0 then none
      else some (z.advance (1 + digitsLength cs + exponentLength (cs.drop (digitsLength cs)))) := by
  have hrest : (z.advance 1).ahead = cs := by rw [Place.ahead_advance, h]; rfl
  rw [followed_both, followed_char_cons h, if_pos rfl, followed_digits_of_succeeds, hrest,
    followed_optional_exponent, Place.advance_advance, Place.advance_advance, Place.ahead_advance,
    hrest, Nat.add_assoc]
  intro y
  rw [followed_optional_exponent]
  rfl

theorem followed_point_fails {e : Regex} (h : z.ahead.head? ≠ some '.') :
    (both (char '.') e).followed k z = none := by
  rw [followed_both]
  cases hahead : z.ahead with
  | nil => exact followed_char_nil hahead
  | cons c cs =>
      rw [followed_char_cons hahead, if_neg]
      rintro rfl
      exact h (by rw [hahead]; rfl)

theorem followed_digits_exponent :
    (both digits exponent).followed some z =
      if digitsLength z.ahead = 0 then none
      else (z.advance (digitsLength z.ahead)).advance?
        (exponentLength (z.ahead.drop (digitsLength z.ahead))) := by
  rw [followed_both, followed_digits_of_fails, followed_exponent, Place.ahead_advance]
  intro y c rest hahead hc
  rw [followed_exponent_cons hahead, if_neg]
  rintro (rfl | rfl) <;> cases hc

theorem followed_fraction :
    fraction.followed some z =
      ((both digits exponent).followed some z).or
        (((both digits (both (char '.') (optional digits))).followed
            ((optional exponent).followed some) z).or
          ((both (char '.') digits).followed ((optional exponent).followed some) z)) := by
  rw [fraction, followed_either, followed_both (e := decimal), decimal, followed_either]

/-- A point goes on behind all digits in front of it. -/
theorem followed_whole_point :
    (both digits (both (char '.') (optional digits))).followed ((optional exponent).followed some) z =
      if digitsLength z.ahead = 0 then none
      else (both (char '.') (optional digits)).followed ((optional exponent).followed some)
        (z.advance (digitsLength z.ahead)) := by
  rw [followed_both, followed_digits_of_fails]
  intro y c rest hahead hc
  apply followed_point_fails
  rw [hahead]
  rintro ⟨⟩
  cases hc

/-- The length of a decimal, with or without digits in front of its point. -/
theorem numberLength_of_point
    (hexponent : digitsLength cs = 0 ∨ exponentLength (cs.drop (digitsLength cs)) = 0)
    {part : List Char} (hrest : cs.drop (digitsLength cs) = '.' :: part) :
    numberLength cs =
      if digitsLength cs = 0 ∧ digitsLength part = 0 then 0
      else digitsLength cs + 1 + digitsLength part + exponentLength (part.drop (digitsLength part)) := by
  unfold numberLength
  dsimp only
  rw [if_neg (by omega), hrest]
  rfl

/-- Without a point and an exponent there are digits alone. -/
theorem numberLength_of_digits
    (hexponent : digitsLength cs = 0 ∨ exponentLength (cs.drop (digitsLength cs)) = 0)
    (hrest : (cs.drop (digitsLength cs)).head? ≠ some '.') : numberLength cs = digitsLength cs := by
  unfold numberLength
  dsimp only
  rw [if_neg (by omega)]
  split
  · rename_i part hpart
    exact absurd (congrArg List.head? hpart) hrest
  · rfl

/-- A number without digits in front of its point. -/
theorem followed_number_bare (hzero : digitsLength z.ahead = 0) :
    (both (char '.') digits).followed ((optional exponent).followed some) z =
      z.advance? (numberLength z.ahead) := by
  by_cases hpoint : z.ahead.head? = some '.'
  · obtain ⟨part, hahead⟩ := List.head?_eq_some_iff.1 hpoint
    have hrest : z.ahead.drop (digitsLength z.ahead) = '.' :: part := by
      rw [hzero]
      exact hahead
    rw [followed_bare_point hahead, numberLength_of_point (.inl hzero) hrest, hzero]
    by_cases hpart : digitsLength part = 0 <;> simp [hpart, Place.advance?]
  · have hrest : (z.ahead.drop (digitsLength z.ahead)).head? ≠ some '.' := by
      rw [hzero]
      exact hpoint
    rw [followed_point_fails hpoint, numberLength_of_digits (.inl hzero) hrest, hzero]
    rfl

/-- A number of digits that no exponent follows. -/
theorem followed_number_whole (hzero : digitsLength z.ahead ≠ 0)
    (hexponent : exponentLength (z.ahead.drop (digitsLength z.ahead)) = 0) :
    ((both (char '.') (optional digits)).followed ((optional exponent).followed some)
        (z.advance (digitsLength z.ahead))).or (some (z.advance (digitsLength z.ahead))) =
      z.advance? (numberLength z.ahead) := by
  by_cases hpoint : (z.ahead.drop (digitsLength z.ahead)).head? = some '.'
  · obtain ⟨part, hrest⟩ := List.head?_eq_some_iff.1 hpoint
    rw [followed_point (z := z.advance (digitsLength z.ahead)) hrest, Option.some_or,
      Place.advance_advance, numberLength_of_point (.inr hexponent) hrest]
    simp [hzero, Place.advance?, Nat.add_assoc]
  · rw [followed_point_fails (z := z.advance (digitsLength z.ahead)) hpoint, Option.none_or,
      numberLength_of_digits (.inr hexponent) hpoint, Place.advance?, if_neg hzero]

theorem followed_number : number.followed some z = z.advance? (numberLength z.ahead) := by
  rw [number, followed_either, followed_fraction, followed_digits_exponent, followed_whole_point,
    followed_digits]
  by_cases hzero : digitsLength z.ahead = 0
  · rw [followed_number_bare hzero]
    simp [hzero, Place.advance?]
  · -- Where digits stand ahead, no point does.
    have hpoint : z.ahead.head? ≠ some '.' := by
      intro hhead
      obtain ⟨rest, hahead⟩ := List.head?_eq_some_iff.1 hhead
      rw [hahead] at hzero
      exact hzero rfl
    rw [if_neg hzero, if_neg hzero, followed_point_fails hpoint, Option.or_none]
    by_cases hexponent : exponentLength (z.ahead.drop (digitsLength z.ahead)) = 0
    · rw [hexponent, Place.advance?, if_pos rfl, Option.none_or, Place.advance?, if_neg hzero,
        followed_number_whole hzero hexponent]
    · have hlength : numberLength z.ahead = digitsLength z.ahead +
          exponentLength (z.ahead.drop (digitsLength z.ahead)) :=
        if_pos ⟨Nat.pos_of_ne_zero hzero, Nat.pos_of_ne_zero hexponent⟩
      rw [hlength]
      simp [hzero, hexponent, Place.advance?, Place.advance_advance]

/-! ### Strings -/

/-- Behind certain characters there are that many fewer ahead. -/
theorem length_ahead_of_mem_chars {word : List Char} {y : Place} (hy : y ∈ (chars word).ends z) :
    y.ahead.length + word.length = z.ahead.length := by
  induction word generalizing z with
  | nil =>
      rw [chars, ends] at hy
      rw [List.mem_singleton.1 hy]
      rfl
  | cons d word ih =>
      rw [chars, ends] at hy
      obtain ⟨x, hx, hy⟩ := List.mem_flatMap.1 hy
      rw [char, ends] at hx
      split at hx
      · rename_i c rest hahead
        split at hx
        · have hrest := ih hy
          rw [List.mem_singleton.1 hx] at hrest
          rw [hahead, List.length_cons, List.length_cons, ← hrest, Nat.add_assoc]
        · cases hx
      · cases hx

theorem takes_chars {word : List Char} (hword : word ≠ []) : (chars word).Takes := by
  intro z y hy
  have hlength := length_ahead_of_mem_chars hy
  have hpos := List.length_pos_iff.2 hword
  omega

theorem followed_pairsAndQuote_nil (h : z.ahead = []) :
    pairsAndQuote.followed some z = none := by
  rw [pairsAndQuote, followed_both, followed_few (takes_chars (List.cons_ne_nil _ _)),
    followed_char_nil h, followed_chars, h]
  rfl

/-- What is tried behind pairs of backslashes: the quote, or else two further backslashes. -/
theorem followed_pairsAndQuote_cons (h : z.ahead = c :: cs) :
    pairsAndQuote.followed some z =
      if c = '"' then some (z.advance 1)
      else if c = '\\' then (char '\\').followed (pairsAndQuote.followed some) (z.advance 1)
      else none := by
  have hnothing : nothing.followed (pairsAndQuote.followed some) = pairsAndQuote.followed some :=
    funext fun _ => followed_nothing
  have hpair : (chars ['\\', '\\']).followed (pairsAndQuote.followed some) z =
      if c = '\\' then (char '\\').followed (pairsAndQuote.followed some) (z.advance 1)
      else none := by
    rw [chars, followed_both, followed_char_cons h, chars, followed_both, chars, hnothing]
  have hfew : pairsAndQuote.followed some z =
      ((char '"').followed some z).or
        ((chars ['\\', '\\']).followed (pairsAndQuote.followed some) z) := by
    have hmore : pairsAndQuote.followed some =
        (few (chars ['\\', '\\'])).followed ((char '"').followed some) :=
      funext fun _ => followed_both
    rw [hmore, followed_few (takes_chars (List.cons_ne_nil _ _))]
  rw [hfew, hpair, followed_char_cons h]
  by_cases hc : c = '"' <;> simp [hc]

theorem followed_toQuote_nil (h : z.ahead = []) : toQuote.followed some z = none := by
  rw [toQuote, followed_both, followed_few takes_one, followed_one_nil h, Option.or_none,
    followed_both, followed_notBehind]
  split
  · rfl
  · exact followed_pairsAndQuote_nil h

/-- A line goes on to its quote in front of a character, or behind it. -/
theorem followed_toQuote_cons (h : z.ahead = c :: cs) :
    toQuote.followed some z =
      (if z.behind.head? = some '\\' then none else pairsAndQuote.followed some z).or
        (if c = '\n' then none else toQuote.followed some (z.advance 1)) := by
  have hmore : toQuote.followed some =
      (few (one (· ≠ '\n'))).followed ((both (notBehind '\\') pairsAndQuote).followed some) :=
    funext fun _ => followed_both
  rw [hmore, followed_few takes_one, followed_one_cons h, followed_both, followed_notBehind]
  simp

/-- Where no backslash stands behind, the pairs may start. -/
theorem followed_toQuote_of_behind (h : z.behind.head? ≠ some '\\') :
    (pairsAndQuote.followed some z).or (toQuote.followed some z) = toQuote.followed some z := by
  cases hahead : z.ahead with
  | nil => rw [followed_pairsAndQuote_nil hahead, Option.none_or]
  | cons c cs =>
      rw [followed_toQuote_cons hahead, if_neg h, ← Option.or_assoc]
      cases pairsAndQuote.followed some z <;> rfl

/-- The quote that closes a string is the one the expression finds.  Within a run of backslashes the
expression cannot start anew, so it ends at that quote or where it goes on behind the run; an odd run
so far lacks a backslash for its last pair. -/
theorem map_closingDistance (cs behind : List Char) :
    ((closingDistance false cs).map (Place.mk behind cs).advance =
      (pairsAndQuote.followed some ⟨behind, cs⟩).or (toQuote.followed some ⟨behind, cs⟩)) ∧
    (behind.head? = some '\\' →
      (closingDistance true cs).map (Place.mk behind cs).advance =
        ((char '\\').followed (pairsAndQuote.followed some) ⟨behind, cs⟩).or
          (toQuote.followed some ⟨behind, cs⟩)) := by
  induction cs generalizing behind with
  | nil =>
      rw [followed_pairsAndQuote_nil rfl, followed_toQuote_nil rfl, followed_char_nil rfl]
      exact ⟨rfl, fun _ => rfl⟩
  | cons c cs ih =>
      obtain ⟨heven, hodd⟩ := ih (c :: behind)
      have hnext : (Place.mk behind (c :: cs)).advance 1 = ⟨c :: behind, cs⟩ := rfl
      have hfurther (d : Option Nat) : (d.map (· + 1)).map (Place.mk behind (c :: cs)).advance =
          d.map (Place.mk (c :: behind) cs).advance := by
        rw [Option.map_map]
        exact congrArg (Option.map · d) (funext fun n => Place.advance_succ rfl n)
      rw [followed_toQuote_cons rfl, followed_char_cons rfl, followed_pairsAndQuote_cons rfl, hnext]
      rw [closingDistance, closingDistance]
      by_cases hline : c = '\n'
      · subst hline
        simp
      by_cases hquote : c = '"'
      · subst hquote
        rw [followed_toQuote_of_behind (by simp)] at heven
        refine ⟨by simp [hnext], fun hbehind => ?_⟩
        simp [hbehind, hfurther, heven]
      by_cases hback : c = '\\'
      · subst hback
        have hodd := hodd rfl
        refine ⟨?_, fun hbehind => ?_⟩
        · by_cases hrun : behind.head? = some '\\' <;> simp [hrun, hfurther, hodd, ← Option.or_assoc]
        · simp [hbehind, hfurther, heven]
      · rw [followed_toQuote_of_behind (by simpa using hback)] at heven
        simp [hline, hquote, hback, hfurther, heven]

/-- A string ends at the first quote that no odd run of backslashes stands in front of. -/
theorem followed_string : string.followed some z = z.advance? (stringLength z.ahead) := by
  rw [string, followed_both]
  cases hahead : z.ahead with
  | nil => exact followed_char_nil hahead
  | cons c rest =>
      have hnext : z.advance 1 = ⟨c :: z.behind, rest⟩ := Place.advance_succ hahead 0
      rw [followed_char_cons hahead]
      by_cases hc : c = '"'
      · subst hc
        have hclosing := (map_closingDistance rest ('"' :: z.behind)).1
        rw [followed_toQuote_of_behind (by simp), ← hnext] at hclosing
        rw [if_pos rfl, ← hclosing, stringLength]
        cases closingDistance false rest with
        | none => rfl
        | some n => simp [Place.advance?, Place.advance_advance, Nat.add_comm]
      · rw [if_neg hc, stringLength]
        · rfl
        · rintro _ ⟨⟩
          exact hc rfl

/-! ### Names, blanks and comments -/

/-- A run of a class is taken whole. -/
theorem followed_many_one_some (p : Char → Bool) :
    (many (one p)).followed some z = some (z.advance (run p z.ahead)) :=
  followed_many_one (.inl rfl)

theorem followed_name : name.followed some z = z.advance? (nameLength z.ahead) := by
  rw [name, followed_both]
  cases hahead : z.ahead with
  | nil => exact followed_one_nil hahead
  | cons c rest =>
      have hrest : (z.advance 1).ahead = rest := by rw [Place.ahead_advance, hahead]; rfl
      rw [followed_one_cons hahead, followed_many_one_some, hrest, Place.advance_advance, nameLength]
      by_cases hc : isNameStart c = true
      · simp [hc, Place.advance?, run]
      · rw [if_neg hc, if_neg hc]
        rfl

theorem followed_blanks : blanks.followed some z = z.advance? (z.ahead.takeWhile isBlank).length :=
  followed_atLeastOne (.inl rfl)

theorem lineCommentLength_eq (cs : List Char) :
    lineCommentLength cs =
      if ['/', '/'].isPrefixOf cs then 2 + run (· ≠ '\n') (cs.drop 2) else 0 := by
  unfold lineCommentLength
  split
  · rfl
  · rename_i hno
    rw [if_neg]
    intro hprefix
    obtain ⟨rest, rfl⟩ : ['/', '/'] <+: cs := by simpa using hprefix
    exact hno rest rfl

theorem followed_lineComment :
    lineComment.followed some z = z.advance? (lineCommentLength z.ahead) := by
  rw [lineComment, followed_both, followed_chars, lineCommentLength_eq]
  by_cases hprefix : ['/', '/'].isPrefixOf z.ahead = true
  · rw [if_pos hprefix, if_pos hprefix, followed_many_one_some, Place.advance_advance]
    simp [Place.advance?]
  · rw [if_neg hprefix, if_neg hprefix]
    rfl

/-- Any character is one on a line or a line feed. -/
theorem ends_any (z : Place) :
    (either (one (· ≠ '\n')) (char '\n')).ends z = (one fun _ => true).ends z := by
  simp only [ends, char]
  cases z.ahead with
  | nil => rfl
  | cons c rest => by_cases hc : c = '\n' <;> simp [hc]

/-- A block comment goes on to the first mark that ends one. -/
theorem followed_few_any :
    (few (either (one (· ≠ '\n')) (char '\n'))).followed ((chars ['*', '/']).followed some) z =
      (commentEndDistance z.ahead).map z.advance := by
  have htakes : (either (one (· ≠ '\n')) (char '\n')).Takes := takes_one.either takes_one
  obtain ⟨behind, ahead⟩ := z
  induction ahead generalizing behind with
  | nil =>
      rw [followed_few htakes, followed_chars, followed, ends_any]
      rfl
  | cons c cs ih =>
      have hnext : (Place.mk behind (c :: cs)).advance 1 = ⟨c :: behind, cs⟩ := rfl
      rw [followed_few htakes, followed_chars, followed, ends_any, ← followed,
        followed_one_cons rfl, if_pos rfl, hnext, ih]
      by_cases hend : ['*', '/'].isPrefixOf (c :: cs) = true
      · obtain ⟨rest, hrest⟩ : ['*', '/'] <+: c :: cs := by simpa using hend
        rw [if_pos hend, ← hrest]
        rfl
      · have hdistance : commentEndDistance (c :: cs) = (commentEndDistance cs).map (· + 1) := by
          rw [commentEndDistance]
          rintro rest rfl rfl
          exact hend rfl
        rw [if_neg hend, hdistance, Option.none_or, Option.map_map]
        have hadvance (n : Nat) : (Place.mk behind (c :: cs)).advance (n + 1) =
            (Place.mk (c :: behind) cs).advance n := Place.advance_succ rfl n
        exact congrArg (Option.map · _) (funext fun n => (hadvance n).symm)

theorem blockCommentLength_eq (cs : List Char) :
    blockCommentLength cs =
      if ['/', '*'].isPrefixOf cs then (commentEndDistance (cs.drop 2)).elim 0 (· + 2) else 0 := by
  unfold blockCommentLength
  split
  · rfl
  · rename_i hno
    rw [if_neg]
    intro hprefix
    obtain ⟨rest, rfl⟩ : ['/', '*'] <+: cs := by simpa using hprefix
    exact hno rest rfl

theorem followed_blockComment :
    blockComment.followed some z = z.advance? (blockCommentLength z.ahead) := by
  rw [blockComment, followed_both, followed_chars, blockCommentLength_eq]
  by_cases hprefix : ['/', '*'].isPrefixOf z.ahead = true
  · rw [if_pos hprefix, if_pos hprefix, followed_both, followed_few_any, Place.ahead_advance]
    cases commentEndDistance (z.ahead.drop 2) with
    | none => rfl
    | some n => simp [Place.advance?, Place.advance_advance, Nat.add_comm]
  · rw [if_neg hprefix, if_neg hprefix]
    rfl

/-! ### Marks -/

theorem followed_marks {words : List (List Char)} (hwords : [] ∉ words) :
    (firstOf words).followed some z = z.advance? (markLength words z.ahead) := by
  rw [followed_firstOf]
  unfold markLength
  rw [← List.head?_filter]
  cases hfilter : words.filter (·.isPrefixOf z.ahead) with
  | nil => rfl
  | cons word others =>
      have hmem : word ∈ words := (List.mem_filter.1 (hfilter ▸ List.mem_cons_self)).1
      have hlength : word.length ≠ 0 := fun h => hwords (List.length_eq_zero_iff.1 h ▸ hmem)
      rw [List.findSome?_cons]
      simp [Place.advance?, hlength]

end Regex

/-! ### Terminals -/

namespace Terminal

/-- No mark is empty. -/
theorem nil_notMem_marks (kind : TokenKind) : [] ∉ marks kind := by
  cases kind <;> simp [marks]

/-- A terminal matches as far as its expression does. -/
theorem followed_regex (t : Terminal) (z : Place) :
    t.regex.followed some z = z.advance? (t.matchLength z.ahead) := by
  cases t with
  | token kind =>
      cases kind with
      | number => exact Regex.followed_number
      | name => exact Regex.followed_name
      | string => exact Regex.followed_string
      | _ => exact Regex.followed_marks (nil_notMem_marks _)
  | blanks => exact Regex.followed_blanks
  | lineComment => exact Regex.followed_lineComment
  | blockComment => exact Regex.followed_blockComment

/-- What the expression of a terminal matches at the head of a text. -/
theorem match?_regex (t : Terminal) (cs : List Char) :
    t.regex.match? cs =
      if t.matchLength cs = 0 then none else some (cs.take (t.matchLength cs)) := by
  rw [Regex.match?_eq, followed_regex, Place.advance?]
  split
  · rfl
  · rw [Option.map_some, Place.reverse_behind_advance]

end Terminal

end VariantScript.Syntax
