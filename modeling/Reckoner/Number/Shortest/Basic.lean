import Reckoner.Number.Decimal

/-!
# The shortest decimal of a double

The reals that round to a given double form an interval around it, from one midpoint with its
neighbours to the other. `shortest` is the decimal in this interval with the fewest digits and,
among those, the one nearest to the double. It looks at the multiples of `10 ^ j`, for falling `j`,
and only at the two that stand beside the double: if any multiple is in the interval, one of these
two is.

Magnitudes are counted in units of `10⁻¹⁰⁷⁴`, in which every double is a whole number.
-/

namespace Reckoner

/-- Which of two decimals at the same distance is taken. -/
inductive Tie where
  | up
  | toEven
  deriving DecidableEq, Repr

/-- The reals around a double that round to it, in units of `10⁻¹⁰⁷⁴`. -/
structure RoundingInterval where
  /-- Twice the lower end. -/
  low : Nat
  middle : Nat
  /-- Twice the upper end. -/
  high : Nat
  /-- The ends round to the double too. -/
  closed : Bool
  deriving DecidableEq, Repr

namespace RoundingInterval

open Binary64

/-- The number of units `10⁻¹⁰⁷⁴` in a unit `2⁻¹⁰⁷⁴`. -/
@[irreducible] def unit : Nat := Nat.pow 5 1074

/-- The interval of the `n`-th magnitude. A half goes to the even index. -/
def around (n : Nat) : RoundingInterval where
  low := (gridPoint (n - 1) + gridPoint n) * unit
  middle := gridPoint n * unit
  high := (gridPoint n + gridPoint (n + 1)) * unit
  closed := n % 2 = 0

def Contains (i : RoundingInterval) (value : Nat) : Prop :=
  if i.closed then i.low ≤ 2 * value ∧ 2 * value ≤ i.high
  else i.low < 2 * value ∧ 2 * value < i.high

instance (i : RoundingInterval) (value : Nat) : Decidable (i.Contains value) :=
  inferInstanceAs (Decidable (ite ..))

/-- Whether of the multiples `below * step` and `(below + 1) * step`, with the double between them,
the upper one is taken. -/
def takesUpper (i : RoundingInterval) (tie : Tie) (below step : Nat) : Bool :=
  let half := (2 * below + 1) * step
  half < 2 * i.middle || half = 2 * i.middle && (tie = .up || below % 2 = 1)

/-- The multiple of `step` in the interval that is nearest to the double, divided by `step`. -/
def multiple? (i : RoundingInterval) (tie : Tie) (step : Nat) : Option Nat :=
  let below := i.middle / step
  if i.Contains (below * step) then
    if i.Contains ((below + 1) * step) ∧ i.takesUpper tie below step then some (below + 1)
    else some below
  else if i.Contains ((below + 1) * step) then some (below + 1)
  else none

/-- The first multiple of `10 ^ j`, `10 ^ (j - 1)`, … that is found; the double itself is a
multiple of one. -/
def search (i : RoundingInterval) (tie : Tie) : Nat → Decimal
  | 0 => ⟨i.middle, -1074⟩
  | j + 1 =>
    match i.multiple? tie (Nat.pow 10 (j + 1)) with
    | some digits => ⟨digits, (j + 1 : Nat) - 1074⟩
    | none => search i tie j

/-- A power of ten above the double: `0.30103` is just above the decimal logarithm of two. -/
def leadingPower (i : RoundingInterval) : Nat :=
  i.middle.log2 * 30103 / 100000 + 2

end RoundingInterval

/-- The decimal with the fewest digits among those that are read as the `n`-th magnitude. -/
def shortest (tie : Tie) (n : Nat) : Decimal :=
  let i := RoundingInterval.around n
  i.search tie i.leadingPower

end Reckoner
