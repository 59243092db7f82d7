import Reckoner.Text.Literal

/-!
# Sums as they are written

The left side of an equation, as a list of signed terms and not as a text. `leftSide` prints it,
with or without the plus of a first positive term, and `coefficient` and `constant` are the two
sums that the terms stand for, each added up from left to right. Nothing here says how such a text
is read.
-/

namespace Reckoner

/-- A literal without any sign, in front of it or in its exponent, and what it is read as. -/
structure UnsignedLiteral where
  chars : List Char
  value : Float
  reads : readLiteral chars = some value
  unsigned : ∀ c ∈ chars, c ≠ '+' ∧ c ≠ '-'

/-- A term without its sign: the unknown with a factor in front of it or not, or a constant. -/
inductive Monomial where
  | unknown (factor : Option UnsignedLiteral) (capital : Bool)
  | constant (literal : UnsignedLiteral)

namespace Monomial

def letter (capital : Bool) : Char :=
  if capital then 'X' else 'x'

def factorChars : Option UnsignedLiteral → List Char
  | none => []
  | some l => l.chars

def factorValue : Option UnsignedLiteral → Float
  | none => 1
  | some l => l.value

def chars : Monomial → List Char
  | unknown factor capital => factorChars factor ++ [letter capital]
  | constant l => l.chars

end Monomial

structure Summand where
  negative : Bool
  monomial : Monomial

namespace Summand

/-- A minus in front of a text, if there is to be one. -/
def withMinus (negative : Bool) (cs : List Char) : List Char :=
  if negative then '-' :: cs else cs

def signed (negative : Bool) (v : Float) : Float :=
  if negative then -v else v

/-- The term with either sign written out. -/
def printed (t : Summand) : List Char :=
  (if t.negative then '-' else '+') :: t.monomial.chars

/-- The term without its sign if this is a plus. -/
def fragment (t : Summand) : List Char :=
  withMinus t.negative t.monomial.chars

/-- The left side of an equation; `omitPlus` leaves the plus of a first positive term out. -/
def leftSide (omitPlus : Bool) : List Summand → List Char
  | [] => []
  | t :: ts => (if omitPlus then t.fragment else t.printed) ++ ts.flatMap printed

/-- What a term adds to the coefficient of the unknown, if it has the unknown. -/
def coefficient? (t : Summand) : Option Float :=
  match t.monomial with
  | .unknown factor _ => some (signed t.negative (Monomial.factorValue factor))
  | .constant _ => none

/-- What a term adds to the constant, if it does not have the unknown. -/
def constant? (t : Summand) : Option Float :=
  match t.monomial with
  | .unknown _ _ => none
  | .constant l => some (signed t.negative l.value)

def total (vs : List Float) : Float :=
  vs.foldl (· + ·) 0

def coefficient (ts : List Summand) : Float :=
  total (ts.filterMap coefficient?)

def constant (ts : List Summand) : Float :=
  total (ts.filterMap constant?)

end Summand

end Reckoner
