import Reckoner.Text.Numeral

/-!
# Literals

The numbers of an equation: a sign, a numeral, and an exponent, of which the sign and the exponent
may be missing, with nothing after them. Words such as `inf` are no literals, and `readLiteral`
also refuses a literal whose nearest double is infinite. `readDouble` reads every text that is
written for a double, and more.
-/

namespace Reckoner

/-- A literal as it is written: the sign apart from the number. -/
structure Literal where
  negative : Bool
  magnitude : Decimal
  deriving DecidableEq, Repr

namespace Literal

/-- Splits a sign off a text; without one the text is positive. -/
def takeSign : List Char → Bool × List Char
  | '+' :: cs => (false, cs)
  | '-' :: cs => (true, cs)
  | cs => (false, cs)

/-- The whole number written by one digit or more and nothing else. -/
def digits? (cs : List Char) : Option Nat :=
  if cs ≠ [] ∧ cs.all Char.isDigit then some (Nat.ofDigitChars 10 cs 0) else none

/-- The power of ten at the end of a literal, which is `0` if nothing is there. -/
def exponent? : List Char → Option Int
  | [] => some 0
  | c :: cs =>
    if c = 'e' ∨ c = 'E' then
      let (negative, ds) := takeSign cs
      (digits? ds).map fun n => if negative then -(n : Int) else n
    else none

/-- Reads a text that is a literal and nothing else. -/
def parse? (cs : List Char) : Option Literal := do
  let (negative, unsigned) := takeSign cs
  let (run, rest) := takeRun true unsigned
  let d ← Numeral.decimal? run
  let e ← exponent? rest
  return ⟨negative, d.digits, d.exponent + e⟩

/-- The nearest double, which is infinite if the number is out of range. -/
def toFloat (l : Literal) : Float :=
  if l.negative then -l.magnitude.toFloat else l.magnitude.toFloat

def Finite (l : Literal) : Prop :=
  l.magnitude.index < Binary64.infinityIndex

instance (l : Literal) : Decidable l.Finite := inferInstanceAs (Decidable (_ < _))

end Literal

/-- The double that a text denotes as a literal, if it is one and the double is finite. -/
def readLiteral (cs : List Char) : Option Float :=
  match Literal.parse? cs with
  | some l => if l.Finite then some l.toFloat else none
  | none => none

/-- The double that a text denotes, finite or not: `inf` and `NaN`, with or without a minus, or any
literal. -/
def readDouble (text : String) : Option Float :=
  match text with
  | "inf" => some Binary64.infinity
  | "-inf" => some (-Binary64.infinity)
  | "NaN" => some Binary64.notANumber
  | "-NaN" => some (-Binary64.notANumber)
  | text => (Literal.parse? text.toList).map Literal.toFloat

end Reckoner
