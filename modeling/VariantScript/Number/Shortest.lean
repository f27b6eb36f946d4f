import VariantScript.Number.Shape

/-!
# The shortest digits of a number

A finite double is written with the fewest decimal digits that still read back to it.  The decimals
with `k` digits around a value form a grid; the first grid that has a point among the reals that
round to the double is taken, and of its points the one nearest to the value.
-/

namespace VariantScript.Number

/-- A natural number and the power of ten that it counts. -/
structure Scientific where
  digits : Nat
  exponent : Int
deriving DecidableEq, Repr

/-- A positive fraction. -/
structure Ratio where
  num : Nat
  den : Nat
deriving DecidableEq, Repr

namespace Ratio

/-- The fraction `n · 2^e`. -/
def ofBinary (n : Nat) (e : Int) : Ratio :=
  ⟨n * Nat.pow 2 e.toNat, Nat.pow 2 (-e).toNat⟩

/-- The fraction divided by `10^e`. -/
def scaleDown (r : Ratio) (e : Int) : Ratio :=
  ⟨r.num * Nat.pow 10 (-e).toNat, r.den * Nat.pow 10 e.toNat⟩

end Ratio

/-- How many decimal digits a natural number has; zero has none. -/
def digitCount (n : Nat) : Nat :=
  if n = 0 then 0 else digitCount (n / 10) + 1

/-- The exponent of the leading decimal digit of a positive fraction. -/
def Ratio.leadingExponent (r : Ratio) : Int :=
  if r.den ≤ r.num then (digitCount (r.num / r.den) : Int) - 1
  else -(digitCount ((r.den - 1) / r.num) : Int)

/-- The reals that round to a double of mantissa `m` and exponent `e`, in quarters of its unit in
the last place, with the word whether the ends belong to them.  Below a power of two the doubles
lie twice as close. -/
structure Basin where
  low : Ratio
  value : Ratio
  high : Ratio
  closed : Bool
deriving Repr

/-- The basin of the double `m · 2^e`. -/
def Basin.ofScaled (m : Nat) (e : Int) : Basin :=
  -- The least mantissa of a binade has its lower neighbour at half the distance.
  let below := if m = Nat.pow 2 52 ∧ -1074 < e then 1 else 2
  { low := .ofBinary (4 * m - below) (e - 2)
    value := .ofBinary (4 * m) (e - 2)
    high := .ofBinary (4 * m + 2) (e - 2)
    closed := m % 2 = 0 }

/-- Whether `c · 10^k` lies in the basin. -/
def Basin.contains (b : Basin) (c : Nat) (k : Int) : Bool :=
  let low := b.low.scaleDown k
  let high := b.high.scaleDown k
  if b.closed then low.num ≤ c * low.den ∧ c * high.den ≤ high.num
  else low.num < c * low.den ∧ c * high.den < high.num

/-- The point of the grid of step `10^k` that stands for the basin, if one lies in it: the nearer of
the two around the value, and of two equally near the even one. -/
def Basin.gridPoint? (b : Basin) (k : Int) : Option Nat :=
  let v := b.value.scaleDown k
  let below := v.num / v.den
  let rest := v.num % v.den
  let nearer :=
    if 2 * rest < v.den then below
    else if v.den < 2 * rest then below + 1
    else below + below % 2
  -- The two points around the value are `below` and `below + 1`.
  let farther := 2 * below + 1 - nearer
  if b.contains nearer k then some nearer
  else if b.contains farther k then some farther
  else none

/-- The first grid with a point in the basin, from `count` digits on, trying `tries` grids. -/
def Basin.search (b : Basin) (leading : Int) : Nat → Nat → Scientific
  | 0, count =>
      let k := leading - count + 1
      let v := b.value.scaleDown k
      ⟨v.num / v.den, k⟩
  | tries + 1, count =>
      let k := leading - count + 1
      match b.gridPoint? k with
      | some c => ⟨c, k⟩
      | none => b.search leading tries (count + 1)

/-- The shortest decimal that reads back to the positive double `m · 2^e`; seventeen digits are
always enough. -/
def shortest (m : Nat) (e : Int) : Scientific :=
  let b := Basin.ofScaled m e
  b.search b.value.leadingExponent 17 1

end VariantScript.Number
