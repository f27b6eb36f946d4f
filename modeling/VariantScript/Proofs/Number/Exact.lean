import Mathlib
import VariantScript.Number.Text

/-!
# Whole numbers are read exactly

A finite double has one mantissa and one exponent.  A natural number that is the magnitude of a double
is rounded to that double, so the decimal digits of a whole number are read as the double that they
were written for; the two zeros are written alike.
-/

namespace VariantScript.Number

open Float.Model UnpackedFloat

/-! ## Mantissas and exponents -/

/-- A mantissa and an exponent that some double has. -/
structure IsCanonical (m : Nat) (e : Int) : Prop where
  pos : 0 < m
  lt : m < 2 ^ 53
  least : -1074 ≤ e
  le : e ≤ 971
  full : 2 ^ 52 ≤ m ∨ e = -1074

theorem targetExponent_eq (t : Int) : Format.binary64.targetExponent t = max (t - 53) (-1074) :=
  rfl

/-- A double has the exponent that rounding its magnitude aims at. -/
theorem IsCanonical.target {m : Nat} {e : Int} (h : IsCanonical m e) :
    Format.binary64.targetExponent (totalExponent m e) = e := by
  have hne : m ≠ 0 := h.pos.ne'
  rw [targetExponent_eq, totalExponent]
  have hlog : m.log2 < 53 := (Nat.log2_lt hne).2 h.lt
  have hleast := h.least
  rcases h.full with hfull | hsub
  · have hlog' : 52 ≤ m.log2 := (Nat.le_log2 hne).2 hfull
    omega
  · omega

/-- The mantissa of a normal double with its leading bit. -/
theorem toNat_leading (mantissa : BitVec 52) : (1#1 ++ mantissa).toNat = 2 ^ 52 + mantissa.toNat := by
  have hor : (1#1 ++ mantissa).toNat = 2 ^ 52 ||| mantissa.toNat := rfl
  rw [hor, Nat.or_comm, Nat.or_two_pow_eq_add_of_lt mantissa.isLt, Nat.add_comm]

theorem isCanonical_unpack {b : BitVec Format.binary64.numBits} {s : Sign} {m : Nat} {e : Int}
    {hm : 0 < m} (h : UnpackedFloat.unpack Format.binary64 b = .finite s m e hm) :
    IsCanonical m e := by
  have hmantissa : (@unpackMantissa Format.binary64 b).toNat < 2 ^ 52 :=
    (unpackMantissa b).isLt
  have hexponent : (@unpackExponent Format.binary64 b).toNat < 2 ^ 11 :=
    (unpackExponent b).isLt
  have hbias : ((Format.binary64.exponentBias : Int) + (52 : Nat)) = 1075 := rfl
  unfold UnpackedFloat.unpack at h
  dsimp only at h
  rw [hbias] at h
  split at h
  · split at h <;> cases h
  · rename_i hones
    have hones : (@unpackExponent Format.binary64 b).toNat ≠ 2047 :=
      fun h => hones (BitVec.eq_of_toNat_eq h)
    split at h
    · rename_i hzero
      have hzero : (@unpackExponent Format.binary64 b).toNat = 0 := by rw [hzero]; rfl
      split at h
      · cases h
      · cases h
        exact ⟨hm, by omega, by omega, by omega, .inr (by omega)⟩
    · rename_i hzero
      have hzero : (@unpackExponent Format.binary64 b).toNat ≠ 0 :=
        fun h => hzero (BitVec.eq_of_toNat_eq h)
      have hlead := toNat_leading (@unpackMantissa Format.binary64 b)
      cases h
      exact ⟨hm, by omega, by omega, by omega, .inl (by omega)⟩

section

variable {m : Nat} {e : Int} (s : Sign) (hm : 0 < m)

/-- A double with a leading bit is taken apart into it and what is stored. -/
theorem unpack_normal (hlow : 2 ^ 52 ≤ m) (hlt : m < 2 ^ 53) (hleast : -1074 ≤ e) (hle : e ≤ 971) :
    UnpackedFloat.unpack Format.binary64 (packComponents Format.binary64 s
      (BitVec.ofNat 11 (e + 1075).toNat) (BitVec.ofNat 52 m)) = .finite s m e hm := by
  have hbias : (Format.binary64.exponentBias : Int) + (52 : Nat) = 1075 := rfl
  have hexponent : (BitVec.ofNat 11 (e + 1075).toNat).toNat = (e + 1075).toNat := by
    rw [BitVec.toNat_ofNat, Nat.mod_eq_of_lt (by omega)]
  have hones : BitVec.ofNat 11 (e + 1075).toNat ≠ -1#11 := by
    intro h
    have hnat : (BitVec.ofNat 11 (e + 1075).toNat).toNat = 2047 := by rw [h]; rfl
    omega
  have hzero : BitVec.ofNat 11 (e + 1075).toNat ≠ 0#11 := by
    intro h
    have hnat : (BitVec.ofNat 11 (e + 1075).toNat).toNat = 0 := by rw [h]; rfl
    omega
  have hmantissa : 2 ^ 52 + (BitVec.ofNat 52 m).toNat = m := by
    rw [BitVec.toNat_ofNat]
    omega
  unfold UnpackedFloat.unpack
  simp only [unpackMantissa_packComponents, unpackExponent_packComponents,
    unpackSign_packComponents, Sign.ofBitVec_toBitVec, if_neg hones, if_neg hzero, toNat_leading,
    hmantissa, hexponent, hbias, UnpackedFloat.finite.injEq, true_and]
  omega

/-- A double without a leading bit has the least exponent. -/
theorem unpack_subnormal (hlt : m < 2 ^ 52) :
    UnpackedFloat.unpack Format.binary64 (packComponents Format.binary64 s 0#11
      (BitVec.ofNat 52 m)) = .finite s m (-1074) hm := by
  have hmantissa : (BitVec.ofNat 52 m).toNat = m := by
    rw [BitVec.toNat_ofNat, Nat.mod_eq_of_lt hlt]
  have hne : BitVec.ofNat 52 m ≠ 0#52 := by
    intro h
    have hnat : (BitVec.ofNat 52 m).toNat = 0 := by rw [h]; rfl
    omega
  have hones : (0#11 : BitVec 11) ≠ -1#11 := by decide
  unfold UnpackedFloat.unpack
  simp only [unpackMantissa_packComponents, unpackExponent_packComponents,
    unpackSign_packComponents, Sign.ofBitVec_toBitVec, if_neg hones, if_true, dif_neg hne, hmantissa]
  rfl

/-- A double that is put together is taken apart again. -/
theorem unpack_pack (h : IsCanonical m e) :
    UnpackedFloat.unpack Format.binary64 (UnpackedFloat.pack Format.binary64 (.finite s m e hm)) =
      .finite s m e hm := by
  have hbias : (Format.binary64.exponentBias : Int) = 1023 := rfl
  have hbits : Format.binary64.mantissaBits = 53 := rfl
  obtain ⟨hpos, hlt, hleast, hle, hfull⟩ := h
  have hbiased : e + 1023 + (52 : Nat) = e + 1075 := by omega
  unfold UnpackedFloat.pack
  dsimp only
  rw [hbias, hbits, hbiased, if_neg (by omega)]
  -- Normal doubles have a leading bit that is not stored, the others have the least exponent.
  by_cases hnormal : 2 ^ 52 ≤ m
  · have hlog : m.log2 + 1 = 53 := by
      have := (Nat.log2_lt hpos.ne').2 hlt
      have := (Nat.le_log2 hpos.ne').2 hnormal
      omega
    rw [if_pos hlog]
    exact unpack_normal s hm hnormal hlt hleast hle
  · have hlog : ¬ m.log2 + 1 = 53 := by
      have := (Nat.log2_lt hpos.ne').2 (Nat.lt_of_not_le hnormal)
      omega
    obtain rfl : e = -1074 := hfull.resolve_left hnormal
    rw [if_neg hlog]
    exact unpack_subnormal s hm (Nat.lt_of_not_le hnormal)

end

/-! ## Rounding what needs none -/

theorem shift_exact (m k j : Nat) :
    (⟨m * 2 ^ (k + j), false, false⟩ : ExtendedMantissa) >>> k = ⟨m * 2 ^ j, false, false⟩ := by
  induction k generalizing j with
  | zero => simp [HShiftRight.hShiftRight, Nat.repeat]
  | succ k ih =>
      have hstep := ih (j + 1)
      rw [show k + (j + 1) = k + 1 + j by omega] at hstep
      change ExtendedMantissa.shiftRightOne
        ((⟨m * 2 ^ (k + 1 + j), false, false⟩ : ExtendedMantissa) >>> k) = _
      rw [hstep, ExtendedMantissa.shiftRightOne]
      have heven : m * 2 ^ (j + 1) = 2 * (m * 2 ^ j) := by ring
      simp [heven]

theorem log2_mul_pow {m : Nat} (hm : m ≠ 0) (k : Nat) : (m * 2 ^ k).log2 = m.log2 + k := by
  rw [Nat.log2_eq_iff (by positivity)]
  have hlow := Nat.log2_self_le hm
  have hhigh := Nat.lt_log2_self (n := m)
  constructor
  · rw [Nat.pow_add]
    exact Nat.mul_le_mul_right _ hlow
  · rw [show m.log2 + k + 1 = m.log2 + 1 + k by omega, Nat.pow_add]
    exact Nat.mul_lt_mul_of_pos_right hhigh (by positivity)

/-- Finer units do not change the magnitude. -/
theorem totalExponent_mul_pow {m : Nat} (hm : m ≠ 0) (e : Int) (k : Nat) :
    totalExponent (m * 2 ^ k) (e - k) = totalExponent m e := by
  rw [totalExponent, totalExponent, log2_mul_pow hm]
  omega

/-- A magnitude in finer units is shifted to the double that it is. -/
theorem shiftToTargetExponent_exact {m : Nat} {e : Int} (h : IsCanonical m e) (k : Nat) :
    shiftToTargetExponent Format.binary64 (m * 2 ^ k) (e - k) .exact = (⟨m, false, false⟩, e) := by
  have hshift := shift_exact m k 0
  rw [Nat.add_zero, Nat.pow_zero, Nat.mul_one] at hshift
  unfold shiftToTargetExponent shiftToExponent
  rw [totalExponent_mul_pow h.pos.ne', h.target]
  have hk : (e - (e - k)).toNat = k := by omega
  simp only [hk, ExtendedMantissa.ofMantissaAndAccuracy, hshift]
  congr 1
  omega

/-- The magnitude of a double in finer units is rounded to that double. -/
theorem roundWithAccuracy_exact {m : Nat} {e : Int} (h : IsCanonical m e) (s : Sign) (k : Nat) :
    roundWithAccuracy Format.binary64 s (m * 2 ^ k) (e - k) .exact = .finite s m e h.pos := by
  have hagain := shiftToTargetExponent_exact h 0
  rw [Nat.pow_zero, Nat.mul_one, Nat.cast_zero, Int.sub_zero] at hagain
  unfold roundWithAccuracy
  simp only [shiftToTargetExponent_exact h k, ExtendedMantissa.roundedMantissa,
    ExtendedMantissa.accuracy, Accuracy.roundToNearestEven, hagain, h.pos.ne', dite_false]

/-! ## Whole numbers -/

/-- Whether a mantissa and an exponent make a natural number. -/
def IsMagnitude (n m : Nat) (e : Int) : Prop :=
  n * 2 ^ (-e).toNat = m * 2 ^ e.toNat

theorem IsMagnitude.totalExponent_eq {n m : Nat} {e : Int} (hn : IsMagnitude n m e)
    (hm : m ≠ 0) : totalExponent n 0 = totalExponent m e := by
  unfold IsMagnitude at hn
  rcases Int.le_total 0 e with he | he
  · have hzero : (-e).toNat = 0 := by omega
    rw [hzero, Nat.pow_zero, Nat.mul_one] at hn
    rw [hn, ← totalExponent_mul_pow hm e e.toNat]
    congr 1
    omega
  · have hzero : e.toNat = 0 := by omega
    rw [hzero, Nat.pow_zero, Nat.mul_one] at hn
    have hne : n ≠ 0 := by
      rintro rfl
      exact hm (by rw [← hn, Nat.zero_mul])
    rw [← hn, ← totalExponent_mul_pow hne 0 (-e).toNat]
    congr 1
    omega

/-- A natural number that is the magnitude of a double is rounded to it. -/
theorem round_magnitude {n m : Nat} {e : Int} (h : IsCanonical m e) (hn : IsMagnitude n m e)
    (s : Sign) : UnpackedFloat.round Format.binary64 s n 0 = .finite s m e h.pos := by
  unfold UnpackedFloat.round decreaseExponent
  rw [hn.totalExponent_eq h.pos.ne', h.target]
  dsimp only
  have hunits : (0 : Int) - ((-e).toNat : Int) = e - e.toNat := by omega
  rw [Int.zero_sub, Nat.shiftLeft_eq, hn, hunits]
  exact roundWithAccuracy_exact h s e.toNat

theorem unpack_one : (Float.ofBits 0x3FF0000000000000).toModel.unpack =
    .finite .positive (2 ^ 52) (-52) (by decide) := by
  rfl

theorem IsMagnitude.pos {n m : Nat} {e : Int} (hn : IsMagnitude n m e) (hm : 0 < m) : 0 < n := by
  refine Nat.pos_of_ne_zero ?_
  rintro rfl
  have hpos : 0 < m * 2 ^ e.toNat := by positivity
  unfold IsMagnitude at hn
  omega

/-- A small natural number is the double that it counts. -/
theorem unpack_toFloat {n m : Nat} {e : Int} (h : IsCanonical m e) (hn : IsMagnitude n m e)
    (hsmall : n < 2 ^ 53) : n.toUInt64.toFloat.toModel.unpack = .finite .positive m e h.pos := by
  have hnat : n.toUInt64.toNat = n := Nat.mod_eq_of_lt (by omega)
  have hcompare : compare (n : Int) 0 = .gt := Int.compare_eq_gt.2 (by have := hn.pos h.pos; omega)
  change UnpackedFloat.unpack Format.binary64 (UnpackedFloat.pack Format.binary64
    (UnpackedFloat.normalize Format.binary64 (n.toUInt64.toNat : Int) 0 .positive)) = _
  rw [hnat, UnpackedFloat.normalize, hcompare]
  dsimp only
  rw [Int.toNat_natCast, round_magnitude h hn, unpack_pack _ _ h]

/-- A magnitude of at least `2^53` has no fraction. -/
theorem IsMagnitude.exponent_nonneg {n m : Nat} {e : Int} (hn : IsMagnitude n m e) (hm : m < 2 ^ 53)
    (hlarge : 2 ^ 53 ≤ n) : 0 ≤ e := by
  by_contra hneg
  have hzero : e.toNat = 0 := by omega
  have hle : n ≤ n * 2 ^ (-e).toNat := Nat.le_mul_of_pos_right n (by positivity)
  unfold IsMagnitude at hn
  rw [hzero, Nat.pow_zero, Nat.mul_one] at hn
  omega

/-- A large natural number that is the magnitude of a double is rounded to it. -/
theorem ofScientific_magnitude {n m : Nat} {e : Int} (h : IsCanonical m e) (hn : IsMagnitude n m e)
    (hlarge : 2 ^ 53 ≤ n) :
    UnpackedFloat.ofScientific Format.binary64 n 0 = .finite .positive m e h.pos := by
  have he := hn.exponent_nonneg h.lt hlarge
  have hbits : (0 : Int) ≤ 2 ^ Format.binary64.exponentBits := by positivity
  have hunits : n <<< Format.binary64.mantissaBits * 10 ^ (0 : Int).toNat =
      m * 2 ^ (e.toNat + 53) := by
    have hzero : (-e).toNat = 0 := by omega
    unfold IsMagnitude at hn
    rw [hzero, Nat.pow_zero, Nat.mul_one] at hn
    rw [Nat.shiftLeft_eq, hn, Nat.pow_add]
    exact Nat.mul_one _ |>.trans (Nat.mul_assoc _ _ _)
  have hexponent : (-(Format.binary64.mantissaBits : Int)) + 0 = e - ((e.toNat + 53 : Nat) : Int) := by
    have hmantissa : Format.binary64.mantissaBits = 53 := rfl
    omega
  unfold UnpackedFloat.ofScientific
  rw [dif_neg (by omega), if_neg (by omega), if_neg (by omega), if_pos (Int.le_refl 0),
    UnpackedFloat.mul, hunits, hexponent]
  exact roundWithAccuracy_exact h .positive _

/-- A natural number that is the magnitude of a double is read as that double. -/
theorem unpack_ofDecimal {n m : Nat} {e : Int} (h : IsCanonical m e) (hn : IsMagnitude n m e) :
    (ofDecimal n 0).toModel.unpack = .finite .positive m e h.pos := by
  unfold ofDecimal Float.ofScientific
  by_cases hsmall : n < 2 ^ 53
  -- Small numbers are counted and multiplied by one, the others are rounded as they are.
  · rw [dif_pos ⟨hsmall, by decide⟩]
    have hproduct : UnpackedFloat.mul Format.binary64 n.toUInt64.toFloat.toModel.unpack
        (Float.ofBits 0x3FF0000000000000).toModel.unpack = .finite .positive m e h.pos := by
      rw [unpack_toFloat h hn hsmall, unpack_one]
      exact roundWithAccuracy_exact h .positive 52
    change UnpackedFloat.unpack Format.binary64 (UnpackedFloat.pack Format.binary64
      (UnpackedFloat.mul Format.binary64 n.toUInt64.toFloat.toModel.unpack
        (Float.ofBits 0x3FF0000000000000).toModel.unpack)) = _
    rw [hproduct, unpack_pack _ _ h]
  · rw [dif_neg (by omega)]
    change UnpackedFloat.unpack Format.binary64 (UnpackedFloat.pack Format.binary64
      (UnpackedFloat.ofScientific Format.binary64 n 0)) = _
    rw [ofScientific_magnitude h hn (Nat.le_of_not_lt hsmall), unpack_pack _ _ h]

theorem eq_of_unpack_eq {x y : Float} (h : x.toModel.unpack = y.toModel.unpack) : x = y :=
  Float.toBits_inj.1 (UInt64.toBitVec_inj.1
    ((unpack_inj_of_valid x.toModel.valid y.toModel.valid).1 h))

theorem unpack_neg {x : Float} {s : Sign} {m : Nat} {e : Int} {hm : 0 < m} (h : IsCanonical m e)
    (hx : x.toModel.unpack = .finite s m e hm) : (-x).toModel.unpack = .finite (-s) m e hm := by
  change UnpackedFloat.unpack Format.binary64 (UnpackedFloat.pack Format.binary64
    x.toModel.unpack.neg) = _
  rw [hx]
  exact unpack_pack _ _ h

/-- The magnitude that a whole double stands for. -/
theorem magnitude_of_whole? {x : Float} {n : Int} {s : Sign} {m : Nat} {e : Int} {hm : 0 < m}
    (hx : x.toModel.unpack = .finite s m e hm) (h : whole? x = some n) :
    IsMagnitude n.natAbs m e ∧ (s = .negative ↔ n < 0) := by
  unfold whole? shape at h
  rw [hx] at h
  dsimp only at h
  obtain ⟨_, hbind, hn⟩ := Option.map_eq_some_iff.1 h
  obtain ⟨k, hk, hcast⟩ := Option.bind_eq_some_iff.1 hbind
  cases hcast
  have hmagnitude : IsMagnitude k m e := by
    unfold IsMagnitude
    split at hk
    · have hzero : (-e).toNat = 0 := by omega
      cases hk
      rw [hzero, Nat.pow_zero, Nat.mul_one]
      rfl
    · split at hk <;> cases hk
      rename_i hmod
      have hzero : e.toNat = 0 := by omega
      rw [hzero, Nat.pow_zero, Nat.mul_one]
      exact Nat.div_mul_cancel (Nat.dvd_of_mod_eq_zero hmod)
  have hpos := hmagnitude.pos hm
  cases s <;> simp only at hn
  · obtain rfl : -(k : Int) = n := hn
    exact ⟨by rwa [Int.natAbs_neg, Int.natAbs_natCast], by simpa using hpos⟩
  · obtain rfl : (k : Int) = n := hn
    exact ⟨by rwa [Int.natAbs_natCast], by simp⟩

/-- A whole double is what its digits are read as, with its sign; of the zeros there are two. -/
theorem eq_of_whole? {x : Float} {n : Int} (h : whole? x = some n) :
    (0 < n ∧ x = ofDecimal n.natAbs 0) ∨ (n < 0 ∧ x = -ofDecimal n.natAbs 0) ∨
      (n = 0 ∧ (x = 0 ∨ x = -0)) := by
  cases hx : x.toModel.unpack with
  | notANumber => simp [whole?, shape, hx] at h
  | infinity s => simp [whole?, shape, hx] at h
  | zero s =>
      refine .inr (.inr ⟨?_, ?_⟩)
      · cases s <;> simp [whole?, shape, hx] at h <;> exact h.symm
      · cases s
        · exact .inr (eq_of_unpack_eq hx)
        · exact .inl (eq_of_unpack_eq hx)
  | finite s m e hm =>
      have hcanonical := isCanonical_unpack hx
      obtain ⟨hmagnitude, hsign⟩ := magnitude_of_whole? hx h
      have hread := unpack_ofDecimal hcanonical hmagnitude
      have hne := hmagnitude.pos hm
      cases s
      · exact .inr (.inl ⟨hsign.1 rfl, eq_of_unpack_eq (hx.trans (unpack_neg hcanonical hread).symm)⟩)
      · refine .inl ⟨?_, eq_of_unpack_eq (hx.trans hread.symm)⟩
        have hnot : ¬ n < 0 := fun hneg => by cases hsign.2 hneg
        omega

/-- Doubles that stand for one whole number are equal. -/
theorem beq_of_whole? {x y : Float} {n : Int} (hx : whole? x = some n) (hy : whole? y = some n) :
    (x == y) = true := by
  have hne {z : Float} (hz : whole? z = some n) : z ≠ Float.nan := by
    rintro rfl
    have hnan : whole? Float.nan = none := by rfl
    rw [hnan] at hz
    cases hz
  rw [Float.beq_iff_ne_nan_and_eq]
  refine ⟨hne hx, hne hy, ?_⟩
  rcases eq_of_whole? hx with ⟨hpos, hx⟩ | ⟨hneg, hx⟩ | ⟨hzero, hx⟩ <;>
    rcases eq_of_whole? hy with ⟨hpos', hy⟩ | ⟨hneg', hy⟩ | ⟨hzero', hy⟩ <;> first
    | omega
    | exact .inl (hx.trans hy.symm)
    | skip
  rcases hx with rfl | rfl <;> rcases hy with rfl | rfl <;> simp

end VariantScript.Number
