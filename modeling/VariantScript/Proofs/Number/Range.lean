import VariantScript.Proofs.Number.Exact

/-!
# Which whole numbers become doubles

A large whole number keeps its first 53 bits and is rounded by the bits behind them.  It is rounded
beyond all doubles exactly from the middle between the largest double and the next power of two on.
A double that is a whole number is what this whole number becomes, but for negative zero, since whole
numbers have only one zero.
-/

namespace VariantScript.Number

open Float.Model UnpackedFloat

/-! ## Shifting and rounding -/

/-- What is shifted out of a mantissa is kept in two bits: the last one, and whether there is a one
behind it. -/
theorem shift_eq (m j : Nat) :
    (⟨m, false, false⟩ : ExtendedMantissa) >>> (j + 1) =
      ⟨m / 2 ^ (j + 1), m / 2 ^ j % 2 != 0, m % 2 ^ j != 0⟩ := by
  induction j with
  | zero =>
      change ExtendedMantissa.shiftRightOne ⟨m, false, false⟩ = _
      simp [ExtendedMantissa.shiftRightOne, Nat.mod_one]
  | succ j ih =>
      change ExtendedMantissa.shiftRightOne
        ((⟨m, false, false⟩ : ExtendedMantissa) >>> (j + 1)) = _
      have hmod : m % 2 ^ (j + 1) = m % 2 ^ j + 2 ^ j * (m / 2 ^ j % 2) := Nat.mod_pow_succ
      have hpos : 2 ^ j ≠ 0 := by positivity
      rw [ih, ExtendedMantissa.shiftRightOne, Nat.div_div_eq_div_mul, ← Nat.pow_succ]
      congr 1
      rw [hmod, Bool.eq_iff_iff]
      simp only [Bool.or_eq_true, bne_iff_ne, ne_eq, Nat.add_eq_zero_iff, Nat.mul_eq_zero, hpos,
        false_or]
      tauto

theorem roundedMantissa_cases (em : ExtendedMantissa) :
    em.roundedMantissa = em.mantissa ∨ em.roundedMantissa = em.mantissa + 1 := by
  obtain ⟨m, roundBit, stickyBit⟩ := em
  match roundBit, stickyBit with
  | false, false | false, true => exact .inl rfl
  | true, true => exact .inr rfl
  | true, false =>
      -- Halfway between two mantissas the even one is taken.
      rcases Nat.mod_two_eq_zero_or_one m with heven | hodd
      · exact .inl (congrArg (m + ·) heven)
      · exact .inr (congrArg (m + ·) hodd)

/-- An odd mantissa is rounded up exactly if the bit behind it is set. -/
theorem roundedMantissa_of_odd {em : ExtendedMantissa} (h : em.mantissa % 2 = 1) :
    em.roundedMantissa = if em.roundBit then em.mantissa + 1 else em.mantissa := by
  obtain ⟨m, roundBit, stickyBit⟩ := em
  cases roundBit <;> cases stickyBit <;>
    simp_all [ExtendedMantissa.roundedMantissa, ExtendedMantissa.accuracy,
      Accuracy.roundToNearestEven]

/-- In finer units the same is shifted out. -/
theorem shift_mul_pow (m c j : Nat) :
    (⟨m * 2 ^ c, false, false⟩ : ExtendedMantissa) >>> (j + c + 1) =
      ⟨m / 2 ^ (j + 1), m / 2 ^ j % 2 != 0, m % 2 ^ j != 0⟩ := by
  have hdiv (i : Nat) : m * 2 ^ c / 2 ^ (i + c) = m / 2 ^ i := by
    rw [Nat.pow_add]
    exact Nat.mul_div_mul_right _ _ (by positivity)
  have hmod : (m * 2 ^ c % 2 ^ (j + c) != 0) = (m % 2 ^ j != 0) := by
    rw [Nat.pow_add, Nat.mul_mod_mul_right, Bool.eq_iff_iff]
    simp
  rw [shift_eq, hmod, hdiv, show j + c + 1 = j + 1 + c by omega, hdiv]

/-- A large natural number keeps the first 53 bits of it, and two bits say what is cut off. -/
theorem shiftToTargetExponent_large {k j : Nat} (hlog : k.log2 = 53 + j) (hne : k ≠ 0) :
    shiftToTargetExponent Format.binary64 (k * 2 ^ 53) (-53) .exact =
      ((⟨k / 2 ^ (j + 1), k / 2 ^ j % 2 != 0, k % 2 ^ j != 0⟩ : ExtendedMantissa), (j : Int) + 1) := by
  have htotal : totalExponent (k * 2 ^ 53) (-53) = 54 + j := by
    rw [totalExponent, log2_mul_pow hne, hlog]
    omega
  have htarget : Format.binary64.targetExponent (54 + j) = j + 1 := by
    rw [targetExponent_eq]
    omega
  have hamount : ((j : Int) + 1 - -53).toNat = j + 53 + 1 := by omega
  unfold shiftToTargetExponent shiftToExponent
  simp only [htotal, htarget, hamount, ExtendedMantissa.ofMantissaAndAccuracy, shift_mul_pow]
  congr 1
  omega

/-- A mantissa of 53 bits stays as it is when it is shifted again. -/
theorem shiftToTargetExponent_again {m j : Nat} (hlow : 2 ^ 52 ≤ m) (hhigh : m < 2 ^ 53) :
    shiftToTargetExponent Format.binary64 m (j + 1) .exact =
      ((⟨m, false, false⟩ : ExtendedMantissa), (j : Int) + 1) := by
  have hlog : m.log2 = 52 := (Nat.log2_eq_iff (by omega)).2 ⟨hlow, hhigh⟩
  have htarget : Format.binary64.targetExponent (totalExponent m (j + 1)) = j + 1 := by
    rw [targetExponent_eq, totalExponent, hlog]
    omega
  unfold shiftToTargetExponent shiftToExponent
  simp only [htarget, Int.sub_self]
  rfl

/-- A mantissa that was rounded up to one more bit is shifted by it. -/
theorem shiftToTargetExponent_full (j : Nat) :
    shiftToTargetExponent Format.binary64 (2 ^ 53) (j + 1) .exact =
      ((⟨2 ^ 52, false, false⟩ : ExtendedMantissa), (j : Int) + 2) := by
  have hlog : (2 ^ 53 : Nat).log2 = 53 := by decide
  have htarget : Format.binary64.targetExponent (totalExponent (2 ^ 53) (j + 1)) = j + 2 := by
    rw [targetExponent_eq, totalExponent, hlog]
    omega
  have hamount : ((j : Int) + 2 - (j + 1)).toNat = 1 := by omega
  unfold shiftToTargetExponent shiftToExponent
  simp only [htarget, hamount, ExtendedMantissa.ofMantissaAndAccuracy]
  rw [shift_eq]
  congr 1

/-- What a large natural number is rounded to: a mantissa of 53 bits, with a larger exponent if the
number is not below the middle between the largest mantissa and the next power of two. -/
theorem roundWithAccuracy_large {k j : Nat} (hlow : 2 ^ (53 + j) ≤ k) (hhigh : k < 2 ^ (54 + j)) :
    ∃ m e hm, roundWithAccuracy Format.binary64 .positive (k * 2 ^ 53) (-53) .exact =
      .finite .positive m e hm ∧ 2 ^ 52 ≤ m ∧ m < 2 ^ 53 ∧
      (e = j + 1 ∧ k < (2 ^ 54 - 1) * 2 ^ j ∨ e = j + 2 ∧ (2 ^ 54 - 1) * 2 ^ j ≤ k) := by
  have hne : k ≠ 0 := (Nat.lt_of_lt_of_le (by positivity) hlow).ne'
  have hlog : k.log2 = 53 + j :=
    (Nat.log2_eq_iff hne).2 ⟨hlow, by rwa [show 53 + j + 1 = 54 + j by omega]⟩
  have hfirst := shiftToTargetExponent_large hlog hne
  -- The first 54 bits decide: all of them are set exactly in the upper case.
  have hhalf : k / 2 ^ (j + 1) = k / 2 ^ j / 2 := by rw [Nat.pow_succ, Nat.div_div_eq_div_mul]
  have hleast : 2 ^ 53 ≤ k / 2 ^ j :=
    (Nat.le_div_iff_mul_le (by positivity)).2 (by rwa [← Nat.pow_add])
  have hmost : k / 2 ^ j < 2 ^ 54 :=
    (Nat.div_lt_iff_lt_mul (by positivity)).2 (by rwa [← Nat.pow_add])
  have hbound : (2 ^ 54 - 1) * 2 ^ j ≤ k ↔ 2 ^ 54 - 1 ≤ k / 2 ^ j :=
    (Nat.le_div_iff_mul_le (by positivity)).symm
  generalize hem : (⟨k / 2 ^ (j + 1), k / 2 ^ j % 2 != 0, k % 2 ^ j != 0⟩ : ExtendedMantissa) = em
    at hfirst
  have hmantissa : em.mantissa = k / 2 ^ j / 2 := by rw [← hem, hhalf]
  have hbit : em.roundBit = (k / 2 ^ j % 2 != 0) := by rw [← hem]
  by_cases hupper : (2 ^ 54 - 1) * 2 ^ j ≤ k
  · have hall : k / 2 ^ j = 2 ^ 54 - 1 := by have := hbound.1 hupper; omega
    have hrounded : em.roundedMantissa = 2 ^ 53 := by
      rw [roundedMantissa_of_odd (by rw [hmantissa, hall]; rfl), hbit, hmantissa, hall]
      rfl
    refine ⟨2 ^ 52, j + 2, by positivity, ?_, by decide, by decide, .inr ⟨rfl, hupper⟩⟩
    unfold roundWithAccuracy
    simp only [hfirst, hrounded, shiftToTargetExponent_full]
    rfl
  · have hnot : k / 2 ^ j < 2 ^ 54 - 1 := by
      have := fun h => hupper (hbound.2 h)
      omega
    have hlt : em.roundedMantissa < 2 ^ 53 := by
      by_cases hfull : k / 2 ^ j / 2 = 2 ^ 53 - 1
      · have hunset : em.roundBit = false := by
          rw [hbit, show k / 2 ^ j = 2 ^ 54 - 2 by omega]
          rfl
        rw [roundedMantissa_of_odd (by rw [hmantissa, hfull]; rfl), hunset, hmantissa, hfull]
        decide
      · rcases roundedMantissa_cases em with h | h <;> omega
    have hle : 2 ^ 52 ≤ em.roundedMantissa := by
      rcases roundedMantissa_cases em with h | h <;> omega
    refine ⟨em.roundedMantissa, j + 1, by omega, ?_, hle, hlt, .inl ⟨rfl, by omega⟩⟩
    unfold roundWithAccuracy
    simp only [hfirst, shiftToTargetExponent_again hle hlt]
    rw [dif_neg (by omega)]

/-! ## Natural numbers beyond all doubles -/

/-- The first natural number that is rounded beyond all doubles, `2 ^ 1024 - 2 ^ 970`: it lies halfway
between the largest double and the next power of two. -/
def overflow : Nat := (2 ^ 54 - 1) * 2 ^ 970

theorem pow_le_middle (n : Nat) : 2 ^ (53 + n) ≤ (2 ^ 54 - 1) * 2 ^ n := by
  rw [Nat.pow_add]
  exact Nat.mul_le_mul_right _ (by decide)

theorem middle_le_pow (n i : Nat) : (2 ^ 54 - 1) * 2 ^ n ≤ 2 ^ (53 + (n + i + 1)) := by
  calc (2 ^ 54 - 1) * 2 ^ n ≤ 2 ^ 54 * 2 ^ n := Nat.mul_le_mul_right _ (Nat.sub_le _ _)
    _ = 2 ^ (54 + n) := (Nat.pow_add 2 54 n).symm
    _ ≤ 2 ^ (53 + (n + i + 1)) := Nat.pow_le_pow_right (by decide) (by omega)

theorem pow_le_overflow : 2 ^ 53 ≤ overflow :=
  (Nat.pow_le_pow_right (by decide) (by decide)).trans (pow_le_middle 970)

theorem isInf_eq (x : Float) : x.isInf = x.toModel.unpack.isInf :=
  rfl

/-- A normal double is packed unless its exponent is too large. -/
theorem isInf_pack {m : Nat} {e : Int} (hlow : 2 ^ 52 ≤ m) (hhigh : m < 2 ^ 53) (he : 0 ≤ e)
    (hm : 0 < m) : (UnpackedFloat.unpack Format.binary64 (UnpackedFloat.pack Format.binary64
      (.finite .positive m e hm))).isInf = true ↔ 972 ≤ e := by
  by_cases hle : e ≤ 971
  · rw [unpack_pack .positive hm ⟨hm, hhigh, by omega, hle, .inl hlow⟩]
    exact iff_of_false nofun (by omega)
  · have hbias : (Format.binary64.exponentBias : Int) = 1023 := rfl
    have hpack : UnpackedFloat.pack Format.binary64 (.finite .positive m e hm) =
        packedInfinity Format.binary64 .positive := by
      unfold UnpackedFloat.pack
      dsimp only
      rw [hbias, if_pos (by omega)]
    rw [hpack]
    exact iff_of_true (by decide) (by omega)

theorem isInf_ofDecimal_small {k : Nat} (hk : k < 2 ^ 53) : (ofDecimal k 0).isInf = false := by
  rcases Nat.eq_zero_or_pos k with rfl | hpos
  · rfl
  · have hlow := Nat.log2_self_le hpos.ne'
    have hlog : k.log2 ≤ 52 := by
      have := (Nat.log2_lt hpos.ne').2 hk
      omega
    have hcanonical : IsCanonical (k * 2 ^ (52 - k.log2)) (k.log2 - 52) := by
      have hfull : 2 ^ 52 ≤ k * 2 ^ (52 - k.log2) := by
        calc 2 ^ 52 = 2 ^ k.log2 * 2 ^ (52 - k.log2) := by
              rw [← Nat.pow_add]; congr 1; omega
          _ ≤ _ := Nat.mul_le_mul_right _ hlow
      have hlt : k * 2 ^ (52 - k.log2) < 2 ^ 53 := by
        calc _ < 2 ^ (k.log2 + 1) * 2 ^ (52 - k.log2) :=
              Nat.mul_lt_mul_of_pos_right Nat.lt_log2_self (by positivity)
          _ = 2 ^ 53 := by rw [← Nat.pow_add]; congr 1; omega
      exact ⟨by omega, hlt, by omega, by omega, .inl hfull⟩
    have hmagnitude : IsMagnitude k (k * 2 ^ (52 - k.log2)) (k.log2 - 52) := by
      unfold IsMagnitude
      have hzero : ((k.log2 : Int) - 52).toNat = 0 := by omega
      have hneg : (-((k.log2 : Int) - 52)).toNat = 52 - k.log2 := by omega
      rw [hzero, hneg, Nat.pow_zero, Nat.mul_one]
    rw [isInf_eq, unpack_ofDecimal hcanonical hmagnitude]
    rfl

/-- A large natural number is only rounded. -/
theorem ofScientific_large {k : Nat} (hlarge : ¬ k < 2 ^ 53) :
    UnpackedFloat.ofScientific Format.binary64 k 0 =
      roundWithAccuracy Format.binary64 .positive (k * 2 ^ 53) (-53) .exact := by
  have hbits : (0 : Int) ≤ 2 ^ Format.binary64.exponentBits := by positivity
  have hunits : k <<< Format.binary64.mantissaBits * 10 ^ (0 : Int).toNat = k * 2 ^ 53 := by
    rw [Nat.shiftLeft_eq]
    exact Nat.mul_one _
  have hexponent : (-(Format.binary64.mantissaBits : Int)) + 0 = -53 := rfl
  unfold UnpackedFloat.ofScientific
  rw [dif_neg (by omega), if_neg (by omega), if_neg (by omega), if_pos (Int.le_refl 0),
    UnpackedFloat.mul, hunits, hexponent]
  rfl

theorem isInf_ofDecimal (k : Nat) : (ofDecimal k 0).isInf = true ↔ overflow ≤ k := by
  by_cases hsmall : k < 2 ^ 53
  · rw [isInf_ofDecimal_small hsmall]
    exact iff_of_false nofun (Nat.not_le.2 (hsmall.trans_le pow_le_overflow))
  · have hne : k ≠ 0 := by
      rintro rfl
      exact hsmall (by positivity)
    obtain ⟨j, hj⟩ : ∃ j, k.log2 = 53 + j :=
      Nat.exists_eq_add_of_le ((Nat.le_log2 hne).2 (Nat.le_of_not_lt hsmall))
    obtain ⟨hlow, hhigh⟩ := (Nat.log2_eq_iff hne).1 hj
    rw [show 53 + j + 1 = 54 + j by omega] at hhigh
    obtain ⟨m, e, hm, hround, hfull, hlt, hcases⟩ := roundWithAccuracy_large hlow hhigh
    have hdecimal : (ofDecimal k 0).isInf = (UnpackedFloat.unpack Format.binary64
        (UnpackedFloat.pack Format.binary64 (.finite .positive m e hm))).isInf := by
      rw [← hround, ← ofScientific_large hsmall]
      unfold ofDecimal Float.ofScientific
      rw [dif_neg (by omega)]
      rfl
    rw [hdecimal, isInf_pack hfull hlt (by omega)]
    rcases Nat.lt_trichotomy j 970 with hj | rfl | hj
    · have hbelow : k < overflow :=
        (hhigh.trans_le (Nat.pow_le_pow_right (by decide) (by omega))).trans_le (pow_le_middle 970)
      constructor <;> intro h <;> omega
    · have hcases : e = 971 ∧ k < overflow ∨ e = 972 ∧ overflow ≤ k := hcases
      constructor <;> intro h <;> omega
    · obtain ⟨i, rfl⟩ := Nat.exists_eq_add_of_lt hj
      have habove : overflow ≤ k := (middle_le_pow 970 i).trans hlow
      constructor <;> intro h <;> omega

theorem middle_le_ten_pow {n m : Nat} (h : 54 + n ≤ 13 * m) :
    (2 ^ 54 - 1) * 2 ^ n ≤ 10 ^ (4 * m) := by
  calc (2 ^ 54 - 1) * 2 ^ n ≤ 2 ^ (53 + (n + 0 + 1)) := middle_le_pow n 0
    _ ≤ 2 ^ (13 * m) := Nat.pow_le_pow_right (by decide) (by omega)
    _ = (2 ^ 13) ^ m := Nat.pow_mul 2 13 m
    _ ≤ (10 ^ 4) ^ m := Nat.pow_le_pow_left (by decide) m
    _ = 10 ^ (4 * m) := (Nat.pow_mul 10 4 m).symm

theorem overflow_le_pow : overflow ≤ 10 ^ (4 * 100) :=
  middle_le_ten_pow (by decide)

/-- Natural numbers that are not beyond all doubles can be written. -/
theorem length_decimalDigits_of_lt_overflow {k : Nat} (h : k < overflow) :
    (decimalDigits k).length ≤ Text.digitBound :=
  (Nat.toDigits_length 10 k (4 * 100) (by decide) (h.trans_le overflow_le_pow)).trans (by decide)

/-! ## Whole numbers of the host -/

theorem isInf_neg (x : Float) : (-x).isInf = x.isInf := by
  have hneg : (-x).toModel.unpack = UnpackedFloat.unpack Format.binary64
      (UnpackedFloat.pack Format.binary64 x.toModel.unpack.neg) := rfl
  cases hx : x.toModel.unpack with
  | finite s m e hm =>
      rw [isInf_eq, isInf_eq, unpack_neg (isCanonical_unpack hx) hx, hx]
      rfl
  | infinity s | zero s =>
      rw [isInf_eq, isInf_eq, hneg, hx]
      cases s <;> decide
  | notANumber =>
      rw [isInf_eq, isInf_eq, hneg, hx]
      decide

theorem ofInt_of_nonneg {n : Int} (h : 0 ≤ n) : Float.ofInt n = ofDecimal n.natAbs 0 := by
  obtain ⟨m, rfl⟩ := Int.eq_ofNat_of_zero_le h
  rfl

theorem ofInt_of_neg {n : Int} (h : n < 0) : Float.ofInt n = -ofDecimal n.natAbs 0 := by
  obtain ⟨m, rfl⟩ := Int.eq_negSucc_of_lt_zero h
  rfl

theorem isInf_ofInt (n : Int) : (Float.ofInt n).isInf = true ↔ overflow ≤ n.natAbs := by
  rcases Int.lt_or_le n 0 with hneg | hpos
  · rw [ofInt_of_neg hneg, isInf_neg, isInf_ofDecimal]
  · rw [ofInt_of_nonneg hpos, isInf_ofDecimal]

/-- A whole number becomes a double unless it is rounded beyond all of them. -/
theorem ofWhole?_eq_none_iff (n : Int) : ofWhole? n = none ↔ overflow ≤ n.natAbs := by
  rw [← isInf_ofInt, ofWhole?]
  split <;> simp_all

/-! ## Doubles that are whole numbers -/

/-- The number with zero for the zero of either sign. -/
def withoutSignOfZero (x : Float) : Float :=
  if x == 0 then 0 else x

theorem isInf_of_whole? {x : Float} {n : Int} (h : whole? x = some n) : x.isInf = false := by
  rw [isInf_eq]
  unfold whole? shape at h
  cases hx : x.toModel.unpack with
  | infinity s =>
      rw [hx] at h
      cases h
  | _ => rfl

theorem eq_zero_of_beq_zero {x : Float} (h : (x == 0) = true) : x = 0 ∨ x = -0 := by
  obtain ⟨-, -, hx | hx | hx⟩ := Float.beq_iff_ne_nan_and_eq.1 h
  · exact .inl hx
  · exact .inl hx.1
  · exact .inr hx.1

theorem whole?_of_beq_zero {x : Float} (h : (x == 0) = true) : whole? x = some 0 := by
  rcases eq_zero_of_beq_zero h with rfl | rfl <;> rfl

theorem withoutSignOfZero_of_whole? {x : Float} {n : Int} (h : whole? x = some n) (hn : n ≠ 0) :
    withoutSignOfZero x = x := by
  refine if_neg fun hzero => hn ?_
  exact Option.some.inj (h.symm.trans (whole?_of_beq_zero hzero))

/-- A double that is a whole number is the double that this whole number becomes, but that negative
zero becomes zero. -/
theorem ofWhole?_of_whole? {x : Float} {n : Int} (h : whole? x = some n) :
    ofWhole? n = some (withoutSignOfZero x) := by
  have hofInt : Float.ofInt n = withoutSignOfZero x := by
    rcases eq_of_whole? h with ⟨hpos, hx⟩ | ⟨hneg, hx⟩ | ⟨rfl, rfl | rfl⟩
    · rw [ofInt_of_nonneg hpos.le, ← hx, withoutSignOfZero_of_whole? h hpos.ne']
    · rw [ofInt_of_neg hneg, ← hx, withoutSignOfZero_of_whole? h hneg.ne]
    · rfl
    · rfl
  have hzero : (withoutSignOfZero x).isInf = false := by
    unfold withoutSignOfZero
    split
    · rfl
    · exact isInf_of_whole? h
  rw [ofWhole?, hofInt, hzero]
  rfl

end VariantScript.Number
