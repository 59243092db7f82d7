/-!
# The grid of doubles

A finite double is a sign and an index `n`: the finite magnitudes, in increasing order, are
numbered `0, 1, 2, …`, and the number of a magnitude is what its bit pattern says without the
sign bit. `gridPoint n` is the `n`-th magnitude as a whole number of units `2⁻¹⁰⁷⁴`, so that
everything about doubles that has to be exact is arithmetic on natural numbers.

`floorIndex` finds the last grid point at or below a number of units, and `nearestIndex` the
nearest grid point to a fraction, a half going to the even index. Reading decimals and printing
the shortest ones both rest on these.
-/

namespace Reckoner

/-- What a double is: no number, an infinity, or a point of the grid with a sign. -/
inductive Binary64 where
  | nan
  | infinite (negative : Bool)
  | finite (negative : Bool) (index : Nat)
  deriving DecidableEq, Repr

namespace Binary64

/-- The weight of the sign bit. -/
def signWeight : Nat := 1 <<< 63

/-- The number of grid points that share an exponent. -/
def binade : Nat := 1 <<< 52

/-- The index at which the finite magnitudes end and the infinity stands. -/
def infinityIndex : Nat := 0x7FF * binade

/-- The number of units `2⁻¹⁰⁷⁴` in one. -/
@[irreducible] def one : Nat := 1 <<< 1074

/-- The `n`-th magnitude, in units of `2⁻¹⁰⁷⁴`: evenly spaced by one unit up to index `2⁵³`, and
by twice the spacing before in each further binade. -/
def gridPoint (n : Nat) : Nat :=
  (n - (n / binade - 1) * binade) <<< (n / binade - 1)

/-- The last index whose grid point is at most `units`. -/
def floorIndex (units : Nat) : Nat :=
  let shift := units.log2 - 52
  shift * binade + units >>> shift

/-- The index of the grid point nearest to `num / den` units; half way, the even one. -/
def nearestIndex (num den : Nat) : Nat :=
  let n := floorIndex (num / den)
  let middle := (gridPoint n + gridPoint (n + 1)) * den
  if 2 * num < middle then n
  else if middle < 2 * num then n + 1
  else n + n % 2

def ofFloat (x : Float) : Binary64 :=
  let bits := x.toBits.toNat
  let negative := decide (signWeight ≤ bits)
  let index := bits % signWeight
  if index < infinityIndex then .finite negative index
  else if index = infinityIndex then .infinite negative
  else .nan

/-- The double of magnitude number `index`; from `infinityIndex` on, the positive infinity. -/
def floatOfIndex (index : Nat) : Float :=
  Float.ofBits (UInt64.ofNat (min index infinityIndex))

def infinity : Float := floatOfIndex infinityIndex

def notANumber : Float := Float.ofBits 0x7FF8000000000000

end Binary64

end Reckoner
