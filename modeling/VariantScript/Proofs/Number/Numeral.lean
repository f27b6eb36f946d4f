import VariantScript.Host.Json
import VariantScript.Proofs.Number.Exact
import VariantScript.Syntax.Lexeme

/-!
# How numbers are written and read back

The text of a finite double is a numeral, perhaps behind a sign: digits, perhaps with a fraction, and
perhaps with an exponent.  A numeral is one token of the grammar wherever none of its characters
follows it, and the digits of a whole number are read as that number.
-/

namespace VariantScript.Number

open Syntax.Terminal (digitsLength exponentLength numberLength)

/-! ## Numerals -/

/-- A run of digits from 0 to 9. -/
def IsDigits (cs : List Char) : Prop :=
  ∀ c ∈ cs, c.isDigit = true

/-- A point and digits, or nothing. -/
def IsFraction (cs : List Char) : Prop :=
  cs = [] ∨ ∃ ds, cs = '.' :: ds ∧ IsDigits ds

/-- An exponent with a sign, or nothing. -/
def IsExponent (cs : List Char) : Prop :=
  cs = [] ∨ ∃ s ds, cs = 'e' :: s :: ds ∧ (s = '+' ∨ s = '-') ∧ ds ≠ [] ∧ IsDigits ds

/-- Digits, perhaps with a fraction, and perhaps with an exponent. -/
inductive IsNumeral : List Char → Prop where
  | mk {ds fraction exponent : List Char} (hds : IsDigits ds) (hne : ds ≠ [])
      (hfraction : IsFraction fraction) (hexponent : IsExponent exponent) :
      IsNumeral (ds ++ (fraction ++ exponent))

/-- Whether a text goes on with a character that is in no numeral. -/
def EndsNumeral (cs : List Char) : Prop :=
  ∀ c ∈ cs.head?, c.isDigit = false ∧ c ≠ '.' ∧ c ≠ 'e' ∧ c ≠ 'E'

theorem digitsLength_append {ds tail : List Char} (hds : IsDigits ds)
    (htail : ∀ c ∈ tail.head?, c.isDigit = false) : digitsLength (ds ++ tail) = ds.length := by
  unfold digitsLength
  rw [List.takeWhile_append_of_pos hds]
  cases tail with
  | nil => simp
  | cons c tail => simp [htail c rfl]

theorem exponentLength_append {exponent rest : List Char}
    (hexponent : IsExponent exponent) (hrest : EndsNumeral rest) :
    exponentLength (exponent ++ rest) = exponent.length := by
  rcases hexponent with rfl | ⟨s, es, rfl, hs, hne, hes⟩
  · cases rest with
    | nil => rfl
    | cons c rest =>
        obtain ⟨-, -, he, he'⟩ := hrest c rfl
        simp [exponentLength, he, he']
  · have hlength : digitsLength (es ++ rest) = es.length :=
      digitsLength_append hes fun c hc => (hrest c hc).1
    have hpos : es.length ≠ 0 := List.length_pos_iff.2 hne |>.ne'
    simp [exponentLength, hs, hlength, hpos]

/-- A numeral is taken as one number, if it ends. -/
theorem IsNumeral.numberLength_append {cs rest : List Char} (h : IsNumeral cs)
    (hrest : EndsNumeral rest) : numberLength (cs ++ rest) = cs.length := by
  cases h with
  | @mk ds fraction exponent hds hne hfraction hexponent =>
      have hlength := exponentLength_append hexponent hrest
      have hpos : 0 < ds.length := List.length_pos_iff.2 hne
      have hends : ∀ c ∈ (exponent ++ rest).head?, c.isDigit = false ∧ c ≠ '.' := by
        rcases hexponent with rfl | ⟨s, es, rfl, -, -, -⟩
        · exact fun c hc => ⟨(hrest c hc).1, (hrest c hc).2.1⟩
        · rintro c ⟨⟩
          decide
      rcases hfraction with rfl | ⟨part, rfl, hpart⟩
      · have hdigits : digitsLength (ds ++ (exponent ++ rest)) = ds.length :=
          digitsLength_append hds fun c hc => (hends c hc).1
        simp only [List.nil_append, List.append_assoc, List.length_append]
        unfold numberLength
        simp only [hdigits, List.drop_left, hlength, hpos, true_and]
        split
        · rfl
        · rename_i hempty
          split
          · rename_i fraction heq
            exact absurd rfl (hends '.' (by rw [heq]; rfl)).2
          · omega
      · have hdigits : digitsLength (ds ++ '.' :: (part ++ (exponent ++ rest))) = ds.length :=
          digitsLength_append hds (by rintro c ⟨⟩; decide)
        have hpartLength : digitsLength (part ++ (exponent ++ rest)) = part.length :=
          digitsLength_append hpart fun c hc => (hends c hc).1
        have hpoint (cs : List Char) : exponentLength ('.' :: cs) = 0 := by
          simp [exponentLength]
        simp only [List.cons_append, List.append_assoc, List.length_append, List.length_cons]
        unfold numberLength
        simp only [hdigits, List.drop_left, hpoint, hpartLength, hlength, hpos.ne', false_and,
          if_false, Nat.lt_irrefl, and_false]
        omega

/-! ## Reading numerals -/

theorem readDigits_eq {ds : List Char} (hds : IsDigits ds) (value count : Nat) :
    readDigits value count ds = (Nat.ofDigitChars 10 ds value, count + ds.length, []) := by
  induction ds generalizing value count with
  | nil => rfl
  | cons d ds ih =>
      have hd : d.isDigit = true := hds d (.head _)
      have hrest : IsDigits ds := fun c hc => hds c (.tail _ hc)
      rw [readDigits, if_pos hd, ih hrest, Nat.ofDigitChars_cons, List.length_cons]
      congr 2
      omega

theorem toLower_of_isDigit {c : Char} (h : c.isDigit = true) : c.toLower = c := by
  unfold Char.isDigit at h
  unfold Char.toLower
  simp only [Bool.and_eq_true, decide_eq_true_eq, UInt32.le_iff_toNat_le, ge_iff_le] at h ⊢
  rw [dif_neg]
  rintro ⟨hlow, -⟩
  have hnine : ('9' : Char).val.toNat = 57 := rfl
  have hletter : ('A' : Char).val.toNat = 65 := rfl
  omega

/-- What starts with no sign and no name of a special number is read as digits. -/
theorem read?_cons {c : Char} (cs : List Char) (hplus : c ≠ '+') (hminus : c ≠ '-')
    (hinf : c.toLower ≠ 'i') (hnan : c.toLower ≠ 'n') :
    read? (c :: cs) = readMagnitude (c :: cs) ∧
      read? ('-' :: c :: cs) = (readMagnitude (c :: cs)).map (- ·) := by
  have hplain : readSign (c :: cs) = (false, c :: cs) := by
    unfold readSign
    split
    · rename_i heq
      exact absurd (List.cons.inj heq).1 hminus
    · rename_i heq
      exact absurd (List.cons.inj heq).1 hplus
    · rfl
  have hnegated : readSign ('-' :: c :: cs) = (true, c :: cs) := rfl
  have hword {d : Char} (ds : List Char) (hd : c.toLower ≠ d) :
      String.ofList ((c :: cs).map Char.toLower) ≠ String.ofList (d :: ds) := by
    rw [Ne, String.ofList_inj, List.map_cons]
    exact fun heq => hd (List.cons.inj heq).1
  have hinf' : String.ofList ((c :: cs).map Char.toLower) ≠ "inf" := hword ['n', 'f'] hinf
  have hinfinity : String.ofList ((c :: cs).map Char.toLower) ≠ "infinity" :=
    hword ['n', 'f', 'i', 'n', 'i', 't', 'y'] hinf
  have hnan' : String.ofList ((c :: cs).map Char.toLower) ≠ "nan" := hword ['a', 'n'] hnan
  constructor
  · unfold read?
    simp only [hplain, hinf', hinfinity, hnan', or_self, if_false, Bool.false_eq_true,
      Option.map_id_fun', id_eq]
  · unfold read?
    simp only [hnegated, hinf', hinfinity, hnan', or_self, if_false, if_true]

theorem read?_digit {c : Char} (cs : List Char) (hc : c.isDigit = true) :
    read? (c :: cs) = readMagnitude (c :: cs) ∧
      read? ('-' :: c :: cs) = (readMagnitude (c :: cs)).map (- ·) := by
  have hne {d : Char} (hd : d.isDigit = false) : c ≠ d := by
    rintro rfl
    cases hc.symm.trans hd
  have hlower {d : Char} (hd : d.isDigit = false) : c.toLower ≠ d := by
    rw [toLower_of_isDigit hc]
    exact hne hd
  exact read?_cons cs (hne rfl) (hne rfl) (hlower rfl) (hlower rfl)

/-- No number starts with the letter of an exponent. -/
theorem read?_exponent (cs : List Char) :
    read? ('e' :: cs) = none ∧ read? ('-' :: 'e' :: cs) = none := by
  have hnone : readMagnitude ('e' :: cs) = none := by
    simp [readMagnitude, readDigits]
  have hread := read?_cons (c := 'e') cs (by decide) (by decide) (by decide) (by decide)
  rwa [hnone] at hread

theorem IsNumeral.exists_cons {cs : List Char} (h : IsNumeral cs) :
    ∃ c rest, cs = c :: rest ∧ c.isDigit = true := by
  cases h with
  | @mk ds fraction exponent hds hne _ _ =>
      cases ds with
      | nil => exact absurd rfl hne
      | cons d ds => exact ⟨d, ds ++ (fraction ++ exponent), rfl, hds d (.head _)⟩

/-! ## Writing numbers -/

/-- A numeral that names a double, perhaps behind a sign. -/
inductive IsSigned (x : Float) : List Char → Prop where
  | plain {cs : List Char} (hcs : IsNumeral cs) (hread : read? cs = some x) : IsSigned x cs
  | negated {cs : List Char} {y : Float} (hcs : IsNumeral cs) (hread : read? cs = some y)
      (hx : -y = x) : IsSigned x ('-' :: cs)

theorem isDigits_toDigits (n : Nat) : IsDigits (Nat.toDigits 10 n) :=
  fun _ hc => Nat.isDigit_of_mem_toDigits (by decide) (by decide) hc

theorem IsDigits.isNumeral {ds : List Char} (hds : IsDigits ds) (hne : ds ≠ []) : IsNumeral ds := by
  simpa using IsNumeral.mk hds hne (.inl rfl) (.inl rfl)

/-- The digits of a natural number name the double nearest to it. -/
theorem read?_toDigits (n : Nat) : read? (Nat.toDigits 10 n) = some (ofDecimal n 0) := by
  have hds := isDigits_toDigits n
  obtain ⟨c, cs, hcs, hc⟩ := (hds.isNumeral Nat.toDigits_ne_nil).exists_cons
  rw [hcs, (read?_digit cs hc).1, ← hcs, readMagnitude, readDigits_eq hds,
    Nat.ofDigitChars_ten_toDigits]
  simp [readExponent, Nat.toDigits_ne_nil]

theorem isNumeral_toDigits (n : Nat) : IsNumeral (Nat.toDigits 10 n) :=
  (isDigits_toDigits n).isNumeral Nat.toDigits_ne_nil

/-- The digits of a whole double, with its sign, name a double that is equal to it. -/
theorem isSigned_toString {x : Float} {n : Int} (h : whole? x = some n) :
    ∃ y, IsSigned y (toString n).toList ∧ (y == x) = true := by
  have hself := beq_of_whole? h h
  have hrepr (hn : 0 ≤ n) : (toString n).toList = Nat.toDigits 10 n.natAbs := by
    obtain ⟨m, rfl⟩ := Int.eq_ofNat_of_zero_le hn
    exact Nat.toList_repr
  rcases eq_of_whole? h with ⟨hpos, hx⟩ | ⟨hneg, hx⟩ | ⟨hzero, -⟩
  · refine ⟨x, ?_, hself⟩
    rw [hrepr (by omega), hx]
    exact .plain (isNumeral_toDigits _) (read?_toDigits _)
  · obtain ⟨m, rfl⟩ := Int.eq_negSucc_of_lt_zero hneg
    have hneg : (toString (Int.negSucc m)).toList = '-' :: Nat.toDigits 10 (m + 1) := by
      change ("-" ++ (m + 1).repr).toList = _
      rw [String.toList_append, Nat.toList_repr]
      rfl
    refine ⟨x, ?_, hself⟩
    rw [hneg]
    exact .negated (isNumeral_toDigits _) (read?_toDigits _) hx.symm
  · subst hzero
    have hread : read? (Nat.toDigits 10 0) = some (ofDecimal 0 0) := read?_toDigits 0
    refine ⟨ofDecimal 0 0, ?_, beq_of_whole? (by rfl) h⟩
    rw [hrepr (Int.le_refl 0)]
    exact .plain (isNumeral_toDigits _) hread

theorem isDigits_replicate (n : Nat) : IsDigits (List.replicate n '0') := by
  intro c hc
  rw [List.eq_of_mem_replicate hc]
  rfl

theorem IsDigits.append {ds es : List Char} (hds : IsDigits ds) (hes : IsDigits es) :
    IsDigits (ds ++ es) := by
  intro c hc
  rcases List.mem_append.1 hc with hc | hc
  · exact hds c hc
  · exact hes c hc

theorem IsDigits.sublist {ds es : List Char} (hes : IsDigits es) (h : ds.Sublist es) :
    IsDigits ds :=
  fun c hc => hes c (h.mem hc)

theorem isDigits_padZeros (width n : Nat) : IsDigits (padZeros width (decimalDigits n)) :=
  (isDigits_replicate _).append (isDigits_toDigits n)

theorem isDigits_dropTrailingZeros {ds : List Char} (hds : IsDigits ds) :
    IsDigits (dropTrailingZeros ds) := by
  intro c hc
  have hmem : c ∈ ds.reverse.dropWhile (· = '0') := List.mem_reverse.1 hc
  exact hds c (List.mem_reverse.1 ((List.dropWhile_sublist _).mem hmem))

theorem isNumeral_point {ds part : List Char} (hds : IsDigits ds) (hne : ds ≠ [])
    (hpart : IsDigits part) : IsNumeral (ds ++ '.' :: part) := by
  simpa using IsNumeral.mk hds hne (.inr ⟨part, rfl, hpart⟩) (.inl rfl)

/-- Laid out digits are a numeral; without any digit there may be an exponent alone. -/
theorem isNumeral_write (l : Layout) {digits : List Char} (hdigits : IsDigits digits) (e : Int) :
    IsNumeral (l.write digits e) ∨ ∃ cs, l.write digits e = 'e' :: cs := by
  have hzeros (n : Nat) := isDigits_replicate n
  unfold Layout.write
  split
  · left
    split
    · exact isNumeral_point (hzeros 1) (by simp) ((hzeros _).append hdigits)
    · have hpadded := hdigits.append (hzeros (e.toNat + 1 - digits.length))
      refine isNumeral_point (hpadded.sublist (List.take_sublist _ _)) ?_ ?_
      · rw [← List.length_pos_iff, List.length_take, List.length_append, List.length_replicate]
        omega
      · split
        · exact hzeros 1
        · exact hpadded.sublist (List.drop_sublist _ _)
  · have hsign : (if e < 0 then '-' else '+') = '+' ∨ (if e < 0 then '-' else '+') = '-' := by
      split <;> simp
    have hpad : padZeros l.exponentDigits (decimalDigits e.natAbs) ≠ [] := by
      simp [padZeros, decimalDigits, Nat.toDigits_ne_nil]
    have hexponent : IsExponent ('e' :: (if e < 0 then '-' else '+') ::
        padZeros l.exponentDigits (decimalDigits e.natAbs)) :=
      .inr ⟨_, _, rfl, hsign, hpad, isDigits_padZeros _ _⟩
    match digits with
    | [] => exact .inr ⟨_, rfl⟩
    | [d] => exact .inl (IsNumeral.mk hdigits (by simp) (.inl rfl) hexponent)
    | d :: d' :: ds =>
        have hd : IsDigits [d] := hdigits.sublist (by simp)
        have hrest : IsDigits (d' :: ds) := hdigits.sublist (by simp)
        exact .inl (IsNumeral.mk hd (by simp) (.inr ⟨_, rfl, hrest⟩) hexponent)

theorem exists_shape {x : Float} (h : x.isFinite = true) :
    ∃ negative m e, shape x = .finite negative m e := by
  unfold Float.isFinite Float.Model.isFinite at h
  unfold shape
  split <;> simp_all [Float.Model.UnpackedFloat.isFinite]

/-- A finite double whose text is read back as the double. -/
structure IsPortable (x : Float) : Prop where
  finite : x.isFinite = true
  read : read? (text x).toList = some x

/-- The text of a finite double that is read back is a numeral with perhaps a sign. -/
theorem IsPortable.isSigned_text {x : Float} (h : IsPortable x) : IsSigned x (text x).toList := by
  obtain ⟨hfinite, hread⟩ := h
  obtain ⟨negative, m, e, hshape⟩ := exists_shape hfinite
  obtain ⟨cs, htext, hcs⟩ : ∃ cs, (text x).toList = (if negative then '-' :: cs else cs) ∧
      (IsNumeral cs ∨ ∃ rest, cs = 'e' :: rest) := by
    unfold text
    rw [hshape]
    refine ⟨_, String.toList_ofList, ?_⟩
    split
    · exact .inl (isNumeral_point (isDigits_replicate 1) (by simp) (isDigits_replicate 1))
    · exact isNumeral_write _ (isDigits_dropTrailingZeros (isDigits_toDigits _)) _
  rw [htext] at hread ⊢
  rcases hcs with hcs | ⟨rest, rfl⟩
  · cases negative with
    | false => exact .plain hcs hread
    | true =>
        obtain ⟨c, rest, rfl, hc⟩ := hcs.exists_cons
        simp only [if_true, (read?_digit rest hc).2, Option.map_eq_some_iff] at hread
        obtain ⟨y, hy, hx⟩ := hread
        exact .negated hcs ((read?_digit rest hc).1.trans hy) hx
  · cases negative with
    | false => cases (read?_exponent rest).1.symm.trans hread
    | true => cases (read?_exponent rest).2.symm.trans hread

/-! ## Numbers that are handed out -/

theorem beq_self_of_isFinite {x : Float} (h : x.isFinite = true) : (x == x) = true := by
  rw [Float.beq_iff_ne_nan_and_eq]
  have hnan : x ≠ Float.nan := by
    rintro rfl
    cases h
  exact ⟨hnan, hnan, .inl rfl⟩

/-- A finite number that is read back is written as a signed numeral of an equal number. -/
theorem exists_write_lowerNumber {x : Float} (h : IsPortable x) :
    ∃ s y, (∀ l depth, Json.write l depth (Value.lowerNumber x) = .ok s) ∧
      IsSigned y s.toList ∧ (y == x) = true := by
  have hfloat : ∃ s y, (∀ l depth, Json.write l depth (.float x) = .ok s) ∧
      IsSigned y s.toList ∧ (y == x) = true :=
    ⟨text x, x, by simp [Json.write, Json.writeFloat, h.finite], h.isSigned_text,
      beq_self_of_isFinite h.finite⟩
  unfold Value.lowerNumber
  split
  · rename_i n hwhole
    split
    · obtain ⟨y, hsigned, hy⟩ := isSigned_toString hwhole
      exact ⟨toString n, y, by simp [Json.write], hsigned, hy⟩
    · exact hfloat
  · exact hfloat

/-- Equal numbers are handed out alike. -/
theorem lowerNumber_congr {x y : Float} (h : (x == y) = true) :
    Value.lowerNumber x = Value.lowerNumber y := by
  have hzero : Value.lowerNumber 0 = Value.lowerNumber (-0) := by rfl
  rw [Float.beq_iff_ne_nan_and_eq] at h
  rcases h.2.2 with rfl | ⟨rfl, rfl⟩ | ⟨rfl, rfl⟩
  · rfl
  · exact hzero
  · exact hzero.symm

/-- Equal numbers are shown alike. -/
theorem display_congr {x y : Float} (h : (x == y) = true) : display x = display y := by
  have hzero : display 0 = display (-0) := by rfl
  rw [Float.beq_iff_ne_nan_and_eq] at h
  rcases h.2.2 with rfl | ⟨rfl, rfl⟩ | ⟨rfl, rfl⟩
  · rfl
  · exact hzero
  · exact hzero.symm

end VariantScript.Number
