import VariantScript.Proofs.Grammar.Derivation
import VariantScript.Evaluation.Binding

/-!
# What literals denote

A number that is spelled as the grammar spells numbers names a double, and a literal that is spelled
as the grammar spells strings denotes a text if it denotes anything.
-/

namespace VariantScript.Number

open Syntax.Terminal (digitsLength exponentLength numberLength)

/-! ## Runs of digits -/

/-- Whether a text goes on with neither a digit nor an underscore. -/
def Ends (cs : List Char) : Prop :=
  ∀ c ∈ cs.head?, c.isDigit = false ∧ c ≠ '_'

theorem readDigits_ends {value count : Nat} {cs : List Char} (h : Ends cs) :
    readDigits value count cs = (value, count, cs) := by
  cases cs with
  | nil => rfl
  | cons c rest =>
      obtain ⟨hdigit, hunderscore⟩ := h c rfl
      simp [readDigits, hdigit, hunderscore]

theorem readDigits_append {ds tail : List Char} (hds : ∀ c ∈ ds, c.isDigit = true)
    (value count : Nat) (htail : Ends tail) :
    ∃ value', readDigits value count (ds ++ tail) = (value', count + ds.length, tail) := by
  induction ds generalizing value count with
  | nil => exact ⟨value, readDigits_ends htail⟩
  | cons d ds ih =>
      obtain ⟨value', h⟩ := ih (fun c hc => hds c (.tail _ hc))
        (10 * value + (d.toNat - '0'.toNat)) (count + 1)
      refine ⟨value', ?_⟩
      rw [List.cons_append, readDigits, if_pos (hds d (.head _)), h, List.length_cons]
      congr 2
      omega

theorem readDigits_all {ds : List Char} (hds : ∀ c ∈ ds, c.isDigit = true) :
    ∃ value, readDigits 0 0 ds = (value, ds.length, []) := by
  obtain ⟨value, h⟩ := readDigits_append hds 0 0 (show Ends [] by simp [Ends])
  exact ⟨value, by simpa using h⟩

/-- A text is a run of digits and what is left behind it. -/
theorem digits_split (cs : List Char) :
    ∃ ds tail, cs = ds ++ tail ∧ ds.length = digitsLength cs ∧ (∀ c ∈ ds, c.isDigit = true) ∧
      ∀ c ∈ tail.head?, c.isDigit = false := by
  refine ⟨cs.takeWhile Char.isDigit, cs.dropWhile Char.isDigit,
    List.takeWhile_append_dropWhile.symm, rfl, fun c hc => ?_, fun c hc => ?_⟩
  · exact List.all_eq_true.1 List.all_takeWhile c hc
  · have hhead := List.head?_dropWhile_not Char.isDigit cs
    rw [Option.mem_def.1 hc] at hhead
    simpa using hhead

theorem take_digits {ds tail : List Char} (n : Nat) :
    (ds ++ tail).take (ds.length + n) = ds ++ tail.take n := by
  rw [List.take_append, List.take_of_length_le (Nat.le_add_right _ _), Nat.add_sub_cancel_left]

/-! ## Exponents -/

/-- Digits behind the letter of an exponent, perhaps with a sign before them, are read. -/
theorem readExponent_cons {c : Char} {cs ds : List Char} {negative : Bool}
    (hc : c = 'e' ∨ c = 'E') (hsign : readSign cs = (negative, ds))
    (hds : ∀ c ∈ ds, c.isDigit = true) (hne : ds.length ≠ 0) :
    ∃ e, readExponent (c :: cs) = some e := by
  obtain ⟨value, hread⟩ := readDigits_all hds
  simp only [readExponent, if_pos hc, hsign, hread, if_neg hne]
  exact ⟨_, rfl⟩

/-- What an exponent part takes from the head of a text can be read, and no digit stands there. -/
theorem readExponent_take (cs : List Char) :
    (∃ e, readExponent (cs.take (exponentLength cs)) = some e) ∧
      Ends (cs.take (exponentLength cs)) := by
  have hnone : (∃ e, readExponent (cs.take 0) = some e) ∧ Ends (cs.take 0) :=
    ⟨⟨0, rfl⟩, by simp [Ends]⟩
  have hends {c : Char} (hc : c = 'e' ∨ c = 'E') (rest : List Char) : Ends (c :: rest) := by
    rintro _ ⟨⟩
    rcases hc with rfl | rfl <;> decide
  match cs with
  | [] => exact hnone
  | [c] =>
      have hzero : exponentLength [c] = 0 := by simp [exponentLength]
      rw [hzero]
      exact hnone
  | c :: s :: digits =>
      -- A letter without digits behind it is not taken, and neither is a sign then.
      by_cases hc : c = 'e' ∨ c = 'E'
      · by_cases hs : s = '+' ∨ s = '-'
        · by_cases hdigits : digitsLength digits = 0
          · have hzero : exponentLength (c :: s :: digits) = 0 := by
              simp only [exponentLength, if_pos hc, if_pos hs, if_pos hdigits]
            rw [hzero]
            exact hnone
          · have hlength : exponentLength (c :: s :: digits) = digitsLength digits + 2 := by
              simp only [exponentLength, if_pos hc, if_pos hs, if_neg hdigits]
            obtain ⟨ds, tail, hsplit, hds, hall, -⟩ := digits_split digits
            have htake : digits.take (digitsLength digits) = ds := by
              rw [← hds, hsplit, List.take_left]
            rw [hlength, List.take_succ_cons, List.take_succ_cons, htake]
            refine ⟨?_, hends hc _⟩
            rcases hs with rfl | rfl
            · have hsign : readSign ('+' :: ds) = (false, ds) := rfl
              exact readExponent_cons hc hsign hall (by omega)
            · have hsign : readSign ('-' :: ds) = (true, ds) := rfl
              exact readExponent_cons hc hsign hall (by omega)
        · by_cases hdigits : digitsLength (s :: digits) = 0
          · have hzero : exponentLength (c :: s :: digits) = 0 := by
              simp only [exponentLength, if_pos hc, if_neg hs, if_pos hdigits]
            rw [hzero]
            exact hnone
          · have hlength : exponentLength (c :: s :: digits) = digitsLength (s :: digits) + 1 := by
              simp only [exponentLength, if_pos hc, if_neg hs, if_neg hdigits]
            obtain ⟨ds, tail, hsplit, hds, hall, -⟩ := digits_split (s :: digits)
            have htake : (s :: digits).take (digitsLength (s :: digits)) = ds := by
              rw [← hds, hsplit, List.take_left]
            rw [hlength, List.take_succ_cons, htake]
            have hsign : readSign ds = (false, ds) := by
              cases ds with
              | nil => rfl
              | cons d ds =>
                  obtain rfl : s = d := by simpa using (List.cons.inj hsplit).1
                  unfold readSign
                  split <;> simp_all
            exact ⟨readExponent_cons hc hsign hall (by omega), hends hc _⟩
      · have hzero : exponentLength (c :: s :: digits) = 0 := by
          simp only [exponentLength, if_neg hc]
        rw [hzero]
        exact hnone

/-! ## Numbers -/

theorem readMagnitude_whole {ds tail : List Char} (hds : ∀ c ∈ ds, c.isDigit = true)
    (hne : ds ≠ []) (htail : Ends tail) (hpoint : tail.head? ≠ some '.')
    (hexponent : ∃ e, readExponent tail = some e) :
    ∃ x, readMagnitude (ds ++ tail) = some x := by
  obtain ⟨value, hread⟩ := readDigits_append hds 0 0 htail
  obtain ⟨e, he⟩ := hexponent
  have hcount : 0 + ds.length ≠ 0 := by
    have := List.length_pos_iff.2 hne
    omega
  unfold readMagnitude
  rw [hread]
  dsimp only
  split
  · exact absurd rfl hpoint
  · rw [if_neg hcount, he]
    exact ⟨_, rfl⟩

theorem readMagnitude_point {ds part tail : List Char} (hds : ∀ c ∈ ds, c.isDigit = true)
    (hpart : ∀ c ∈ part, c.isDigit = true) (hne : ds ≠ [] ∨ part ≠ []) (htail : Ends tail)
    (hexponent : ∃ e, readExponent tail = some e) :
    ∃ x, readMagnitude (ds ++ '.' :: (part ++ tail)) = some x := by
  have hpoint : Ends ('.' :: (part ++ tail)) := by
    rintro _ ⟨⟩
    decide
  obtain ⟨value, hread⟩ := readDigits_append hds 0 0 hpoint
  obtain ⟨e, he⟩ := hexponent
  unfold readMagnitude
  rw [hread]
  dsimp only
  cases part with
  | nil =>
      have hhead : (tail.head?.any Char.isDigit) = false := by
        cases tail with
        | nil => rfl
        | cons c tail => simpa using (htail c rfl).1
      have hcount : ¬ 0 + ds.length + 0 = 0 := by
        have := List.length_pos_iff.2 (hne.resolve_right fun h => h rfl)
        omega
      simp only [List.nil_append, hhead, Bool.false_eq_true, if_false, if_neg hcount, he]
      exact ⟨_, rfl⟩
  | cons d part =>
      have hhead : ((d :: part ++ tail).head?.any Char.isDigit) = true := by
        simpa using hpart d (.head _)
      obtain ⟨value', hread'⟩ := readDigits_append hpart value 0 htail
      have hcount : ¬ 0 + ds.length + (0 + (d :: part).length) = 0 := by
        simp only [List.length_cons]
        omega
      simp only [hhead, if_true, hread', if_neg hcount, he]
      exact ⟨_, rfl⟩

/-- What the grammar takes as a number from the head of a text can be read. -/
theorem readMagnitude_take {cs : List Char} (h : 0 < numberLength cs) :
    ∃ x, readMagnitude (cs.take (numberLength cs)) = some x := by
  obtain ⟨ds, tail, hsplit, hlength, hds, hhead⟩ := digits_split cs
  have hdrop : cs.drop (digitsLength cs) = tail := by
    rw [← hlength, hsplit, List.drop_left]
  unfold numberLength at h ⊢
  dsimp only at h ⊢
  rw [hdrop] at h ⊢
  split
  -- A number ends in its whole part, behind an exponent, or behind a point and perhaps an exponent.
  · rename_i hwhole
    obtain ⟨hpos, hexponent⟩ := hwhole
    rw [← hlength, hsplit, take_digits]
    obtain ⟨hread, hends⟩ := readExponent_take tail
    refine readMagnitude_whole hds (List.length_pos_iff.1 (by omega)) hends ?_ hread
    intro hpoint
    cases tail with
    | nil => simp at hpoint
    | cons c tail =>
        obtain ⟨n, hn⟩ := Nat.exists_eq_add_of_lt hexponent
        rw [hn, Nat.zero_add, List.take_succ_cons, List.head?_cons] at hpoint
        cases hpoint
        simp [exponentLength] at hexponent
  · rename_i hwhole
    rw [if_neg hwhole] at h
    split
    · rename_i fraction
      obtain ⟨part, rest, hfraction, hpartLength, hpart, -⟩ := digits_split fraction
      have hrest : fraction.drop (digitsLength fraction) = rest := by
        rw [← hpartLength, hfraction, List.drop_left]
      rw [hrest]
      split
      · rename_i hempty
        simp [hempty] at h
      · rename_i hempty
        have hne : ds ≠ [] ∨ part ≠ [] := by
          rw [← List.length_pos_iff, ← List.length_pos_iff]
          omega
        have htake : cs.take (digitsLength cs + 1 + digitsLength fraction + exponentLength rest) =
            ds ++ '.' :: (part ++ rest.take (exponentLength rest)) := by
          rw [← hlength, ← hpartLength, hsplit, Nat.add_assoc, Nat.add_assoc, take_digits,
            Nat.add_comm 1, List.take_succ_cons, hfraction, take_digits]
        obtain ⟨hread, hends⟩ := readExponent_take rest
        rw [htake]
        exact readMagnitude_point hds hpart hne hends hread
    · rename_i hpoint
      have hpos : 0 < digitsLength cs := by
        split at h
        · rename_i fraction
          exact absurd rfl (hpoint fraction)
        · exact h
      have htake : cs.take (digitsLength cs) = ds ++ [] := by
        rw [← hlength, hsplit, List.take_left, List.append_nil]
      rw [htake]
      exact readMagnitude_whole hds (List.length_pos_iff.1 (by omega)) (by simp [Ends]) (by simp)
        ⟨0, rfl⟩

theorem read?_of_readMagnitude {cs : List Char} {x : Float} (hsign : readSign cs = (false, cs))
    (h : readMagnitude cs = some x) : ∃ y, read? cs = some y := by
  -- Names of special numbers are looked at first; a text that is none of them is read as digits.
  have hword (word : String) : ∃ z, (if word = "inf" ∨ word = "infinity" then some (1 / 0)
      else if word = "nan" then some (0 / 0) else readMagnitude cs) = some z := by
    split
    · exact ⟨_, rfl⟩
    · split
      · exact ⟨_, rfl⟩
      · exact ⟨x, h⟩
  obtain ⟨z, hz⟩ := hword (String.ofList (cs.map Char.toLower))
  unfold read?
  rw [hsign]
  dsimp only
  rw [hz]
  exact ⟨_, rfl⟩

/-- A number of the grammar starts with no sign. -/
theorem readSign_take {cs : List Char} (h : 0 < numberLength cs) :
    readSign (cs.take (numberLength cs)) = (false, cs.take (numberLength cs)) := by
  obtain ⟨n, hn⟩ := Nat.exists_eq_add_of_lt h
  cases cs with
  | nil => rfl
  | cons c cs =>
      rw [hn, Nat.zero_add, List.take_succ_cons]
      unfold readSign
      split
      · rename_i heq
        obtain ⟨rfl, -⟩ := List.cons.inj heq
        simp [numberLength, digitsLength] at h
      · rename_i heq
        obtain ⟨rfl, -⟩ := List.cons.inj heq
        simp [numberLength, digitsLength] at h
      · rfl

/-- A number of the grammar names a double. -/
theorem readLoose?_of_takes {cs : List Char} (h : (Syntax.Terminal.token .number).Takes cs) :
    ∃ x, readLoose? cs = some x := by
  obtain ⟨hne, rest, hlength⟩ := h
  change numberLength (cs ++ rest) = cs.length at hlength
  have hpos : 0 < numberLength (cs ++ rest) := by
    rw [hlength]
    exact List.length_pos_iff.2 hne
  have htake : (cs ++ rest).take (numberLength (cs ++ rest)) = cs := by
    rw [hlength, List.take_left]
  have hsign := readSign_take hpos
  obtain ⟨x, hx⟩ := readMagnitude_take hpos
  rw [htake] at hsign hx
  obtain ⟨y, hy⟩ := read?_of_readMagnitude hsign hx
  exact ⟨y, readLoose?_of_read? hy⟩

end VariantScript.Number

namespace VariantScript

/-! ## Strings -/

theorem Json.bareItem?_quote {cs : List Char} {t : Json.Taken Host cs.length}
    (hquote : cs.head? = some '"') (h : Json.bareItem? cs = some t) : ∃ s, t.item = .text s := by
  cases cs with
  | nil => cases hquote
  | cons c rest =>
      obtain rfl : c = '"' := by simpa using hquote
      unfold Json.bareItem? at h
      replace h : (Json.string? rest).map (·.map Host.text) = some t := h
      obtain ⟨u, -, rfl⟩ := Option.map_eq_some_iff.1 h
      exact ⟨u.item, rfl⟩

/-- A text that starts with a quote holds no data but a text. -/
theorem Json.read?_quote {cs : List Char} {data : Host} (h : Json.read? ('"' :: cs) = some data) :
    ∃ s, data = .text s := by
  unfold Json.read? at h
  split at h
  · rename_i t hitem
    split at h
    · cases h
      unfold Json.item? at hitem
      obtain ⟨t', hbare, rfl⟩ := Option.map_eq_some_iff.1 hitem
      exact Json.bareItem?_quote rfl hbare
    · cases h
  · cases h

/-- What is behind the quote of an item of data is the body of a string. -/
theorem Json.decodeBody_of_bareItem? {cs rest : List Char} {t : Json.Taken Host cs.length}
    (hquote : cs = '"' :: rest) (h : Json.bareItem? cs = some t) :
    ∃ text, Text.Quoted.decodeBody rest = some (text, t.rest) := by
  subst hquote
  unfold Json.bareItem? at h
  replace h : (Json.string? rest).map (·.map Host.text) = some t := h
  obtain ⟨u, hstring, rfl⟩ := Option.map_eq_some_iff.1 h
  unfold Json.string? at hstring
  obtain ⟨⟨text, behind⟩, hbody, htaken⟩ := Option.bind_eq_some_iff.1 hstring
  dsimp only at htaken
  split at htaken
  · cases htaken
    exact ⟨text, hbody⟩
  · cases htaken

/-- A text that starts with a quote holds data only if it is a string in quotes. -/
theorem Json.decode?_of_read? {cs : List Char} {data : Host}
    (h : Json.read? ('"' :: cs) = some data) :
    ∃ text, Text.Quoted.decode? ('"' :: cs) = some text := by
  unfold Json.read? at h
  split at h
  · rename_i t hitem
    split at h
    · rename_i hblank
      unfold Json.item? at hitem
      obtain ⟨u, hbare, rfl⟩ := Option.map_eq_some_iff.1 hitem
      have hskip : Json.skipBlanks ('"' :: cs) = '"' :: cs := rfl
      obtain ⟨text, hbody⟩ := Json.decodeBody_of_bareItem? hskip hbare
      have hrest : u.rest.takeWhile Text.Quoted.isOuterBlank = u.rest := by
        have happend : u.rest.takeWhile _ ++ Json.skipBlanks u.rest = u.rest :=
          List.takeWhile_append_dropWhile
        rwa [show Json.skipBlanks u.rest = [] from hblank, List.append_nil] at happend
      have hall : u.rest.all Text.Quoted.isOuterBlank = true := by
        rw [← hrest]
        exact List.all_takeWhile
      refine ⟨text, ?_⟩
      unfold Text.Quoted.decode?
      rw [show ('"' :: cs).dropWhile Text.Quoted.isOuterBlank = '"' :: cs from rfl]
      simp only [hbody, hall, if_true]
    · cases h
  · cases h

/-- What is spelled as a string starts with a quote. -/
theorem Syntax.Terminal.exists_quote_of_takes {cs : List Char}
    (h : (Syntax.Terminal.token .string).Takes cs) : ∃ body, cs = '"' :: body := by
  obtain ⟨hne, rest, hlength⟩ := h
  cases cs with
  | nil => exact absurd rfl hne
  | cons c cs =>
      change Syntax.Terminal.stringLength (c :: (cs ++ rest)) = (c :: cs).length at hlength
      unfold Syntax.Terminal.stringLength at hlength
      split at hlength
      · rename_i heq
        exact ⟨cs, by rw [(List.cons.inj heq).1]⟩
      · simp at hlength

/-- A literal that is spelled as a string denotes a text if it denotes anything. -/
theorem decodeLiteral_of_takes {literal : String} {data : Host}
    (hliteral : (Syntax.Terminal.token .string).Takes literal.toList)
    (h : decodeLiteral literal = .ok data) : ∃ s, data = .text s := by
  obtain ⟨cs, hcs⟩ := Syntax.Terminal.exists_quote_of_takes hliteral
  unfold decodeLiteral at h
  -- Either the literal is a string in quotes, or it is read as data and starts with a quote.
  split at h
  · cases h
    exact ⟨_, rfl⟩
  · split at h
    · rename_i hread
      cases h
      rw [hcs] at hread
      exact Json.read?_quote hread
    · cases h

/-- A literal that is spelled as a string denotes what stands in its quotes, or nothing. -/
theorem decodeLiteral_eq_of_takes {literal : String}
    (hliteral : (Syntax.Terminal.token .string).Takes literal.toList) :
    decodeLiteral literal =
      match Text.Quoted.decode? literal.toList with
      | some cs => .ok (.text (String.ofList cs))
      | none => .error (.invalidString literal) := by
  obtain ⟨cs, hcs⟩ := Syntax.Terminal.exists_quote_of_takes hliteral
  unfold decodeLiteral
  cases hdecode : Text.Quoted.decode? literal.toList with
  | some text => rfl
  | none =>
      have hread : Json.read? literal.toList = none := by
        rw [hcs] at hdecode ⊢
        cases hread : Json.read? ('"' :: cs) with
        | none => rfl
        | some data =>
            obtain ⟨text, htext⟩ := Json.decode?_of_read? hread
            rw [hdecode] at htext
            cases htext
      rw [hread]

end VariantScript
