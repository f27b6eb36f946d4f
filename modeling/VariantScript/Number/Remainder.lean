import VariantScript.Number.Shape

/-!
# Remainders of doubles

The remainder of two doubles is exact and takes the sign of the dividend.  It exists for all
operands but an infinite dividend or a zero divisor beside an operand that is a number.
-/

namespace VariantScript.Number

/-- The remainder of two natural numbers scaled by powers of two, in units of the smaller power. -/
def scaledRemainder (m : Nat) (e : Int) (n : Nat) (f : Int) : Nat × Int :=
  if e ≤ f then (m % (n * Nat.pow 2 (f - e).toNat), e)
  else (m * Nat.pow 2 (e - f).toNat % n, f)

/-- The remainder of a division whose quotient is cut toward zero, if it exists. -/
def remainder? (x y : Float) : Option Float :=
  match shape x, shape y with
  | .notANumber, _ => some (0 / 0)
  | _, .notANumber => some (0 / 0)
  | .infinite _, _ => none
  | .finite _ _ _, .infinite _ => some x
  | .finite negative m e, .finite _ n f =>
      if n = 0 then none
      else
        let (r, g) := scaledRemainder m e n f
        some (ofScaled negative r g)

end VariantScript.Number
