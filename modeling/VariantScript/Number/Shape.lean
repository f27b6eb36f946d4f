/-!
# The shape of a number

Numbers of the language are doubles.  A finite double is a signed natural number times a power of
two; this module takes doubles apart into that shape and puts them together again, and says which
of them are whole numbers.
-/

namespace VariantScript.Number

/-- What a double stands for. -/
inductive Shape where
  | notANumber
  | infinite (negative : Bool)
  | finite (negative : Bool) (mantissa : Nat) (exponent : Int)
deriving DecidableEq, Repr

/-- The shape of a double; both zeros have mantissa zero. -/
def shape (x : Float) : Shape :=
  match x.toModel.unpack with
  | .notANumber => .notANumber
  | .infinity s => .infinite (s matches .negative)
  | .zero s => .finite (s matches .negative) 0 0
  | .finite s m e _ => .finite (s matches .negative) m e

/-- The double nearest to a signed natural number times a power of two, a tie going to the even
mantissa. -/
def ofScaled (negative : Bool) (mantissa : Nat) (exponent : Int) : Float :=
  .ofModel (.pack (.round .binary64 (if negative then .negative else .positive) mantissa exponent))

/-- The whole number that a double stands for, if it is finite and whole. -/
def whole? (x : Float) : Option Int :=
  match shape x with
  | .finite negative m e =>
      let magnitude? : Option Nat :=
        if 0 ≤ e then some (m * Nat.pow 2 e.toNat)
        else if m % Nat.pow 2 (-e).toNat = 0 then some (m / Nat.pow 2 (-e).toNat)
        else none
      magnitude?.map fun n => if negative then -(n : Int) else n
  | _ => none

/-- The double nearest to a whole number, if that is finite. -/
def ofWhole? (n : Int) : Option Float :=
  let x := Float.ofInt n
  if x.isInf then none else some x

end VariantScript.Number
