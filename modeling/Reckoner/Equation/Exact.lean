import Reckoner.Equation.Fragment
import Reckoner.Number.Rational

/-!
# Equations in rational arithmetic

An equation as what its fragments and its right side denote (`IsEquation`), and its left side as a
rational number for each number in the place of the unknown (`sumAt`). `ExactlySolved` says that
nothing is rounded on the way from the values to the solution.
-/

namespace Reckoner

open Summand (total)

/-- The fragments of a sum denote these parts, in this order. -/
def HasParts (cs : List Char) (parts : List (TermKind × Float)) : Prop :=
  List.Forall₂ (fun f part => Denotes f part.1 part.2) (fragments cs) parts

/-- What is on the left of the first equals sign has these parts, and on the right is a literal. -/
def IsEquation (text : String) (parts : List (TermKind × Float)) (rhs : Float) : Prop :=
  ∃ left right, withoutBlanks text.toList = left ++ '=' :: right ∧ '=' ∉ left ∧
    HasParts left parts ∧ readLiteral right = some rhs

/-- A part with the number `y` in the place of the unknown. -/
def partAt (y : ℚ) (part : TermKind × Float) : ℚ :=
  match part.1 with
  | .unknown => rational part.2 * y
  | .constant => rational part.2

def sumAt (y : ℚ) (parts : List (TermKind × Float)) : ℚ :=
  (parts.map (partAt y)).sum

/-- The sum of the values of one kind, without rounding. -/
def exactTotal (kind : TermKind) (parts : List (TermKind × Float)) : ℚ :=
  ((valuesOf kind parts).map rational).sum

/-- No operation is rounded when the two sums are added up, when the constant is taken from the
right side, and when what remains is divided by the coefficient. -/
structure ExactlySolved (parts : List (TermKind × Float)) (rhs : Float) : Prop where
  coefficient : SumsExactly 0 (valuesOf .unknown parts)
  constant : SumsExactly 0 (valuesOf .constant parts)
  difference : Represents (rhs - total (valuesOf .constant parts))
    (rational rhs - rational (total (valuesOf .constant parts)))
  quotient : Represents
    ((rhs - total (valuesOf .constant parts)) / total (valuesOf .unknown parts))
    (rational (rhs - total (valuesOf .constant parts)) /
      rational (total (valuesOf .unknown parts)))

end Reckoner
