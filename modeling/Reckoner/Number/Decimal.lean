import Reckoner.Number.Grid.Basic

/-!
# Decimal numbers and the doubles nearest to them

A `Decimal` is a natural number times a power of ten. `Decimal.index` is the index of the double
nearest to it, computed from the exact fraction; `Decimal.toFloat` is that double. Exponents far
outside the range of doubles are decided by size alone, so that no number is ever built that is
much longer than the text it came from.
-/

namespace Reckoner

/-- The number `digits · 10 ^ exponent`. -/
structure Decimal where
  digits : Nat
  exponent : Int
  deriving DecidableEq, Repr

namespace Decimal

open Binary64

/-- The number is below half the least positive double, hence nearest to zero. It is below
`2 ^ (log2 digits + 1) · 8 ^ exponent` when the exponent is negative. -/
def Vanishes (d : Decimal) : Prop :=
  d.digits = 0 ∨ d.digits.log2 + 1 + 3 * d.exponent ≤ -1075

instance (d : Decimal) : Decidable d.Vanishes := inferInstanceAs (Decidable (_ ∨ _))

/-- The number is `10 ^ 309` or more, beyond the greatest double. -/
def Overflows (d : Decimal) : Prop :=
  309 ≤ d.exponent

instance (d : Decimal) : Decidable d.Overflows := inferInstanceAs (Decidable (_ ≤ _))

/-- The index of the nearest double, a tie going to the even one; `infinityIndex` or more when
there is no finite one. -/
def index (d : Decimal) : Nat :=
  if d.Vanishes then 0
  else if d.Overflows then infinityIndex
  else match d.exponent with
    | .ofNat e => nearestIndex (d.digits * Nat.pow 10 e * one) 1
    | .negSucc e => nearestIndex (d.digits * one) (Nat.pow 10 (e + 1))

/-- The double nearest to the number. -/
def toFloat (d : Decimal) : Float :=
  floatOfIndex d.index

end Decimal

end Reckoner
