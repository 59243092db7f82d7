import Reckoner.Equation.Exact

/-!
# What becomes of an equation

`EquationOutcome text r` says when the equation `text` has the outcome `r`: in which order its parts
are looked at, what can be at fault in each of them, and what it is solved to without a fault. It
speaks of the fragments of the left side and of literals of the grammar, and not of how they are
read.
-/

namespace Reckoner

open LinearForm (isUnknown)
open Summand (total)

/-- A literal of the grammar whose nearest double is finite. -/
structure IsFiniteLiteral (cs : List Char) : Prop where
  literal : IsLiteral cs
  finite : ∀ l, Literal.parse? cs = some l → l.Finite

/-- What a fragment counts for, well-formed or not. -/
def kindOf (f : List Char) : TermKind :=
  if f.any isUnknown then .unknown else .constant

/-- A fragment that is no fault: a literal, or a fragment with the letter of the unknown of which a
literal, nothing or a minus is left without the letters. -/
def IsTerm (f : List Char) : Prop :=
  match kindOf f with
  | .constant => IsFiniteLiteral f
  | .unknown =>
    withoutLetters f = [] ∨ withoutLetters f = ['-'] ∨ IsFiniteLiteral (withoutLetters f)

/-- The two sides of the first equals sign, without blanks. -/
def IsCut (text : String) (left right : List Char) : Prop :=
  withoutBlanks text.toList = left ++ '=' :: right ∧ '=' ∉ left

inductive EquationOutcome (text : String) : Except Fault Float → Prop where
  | missingEquals (h : '=' ∉ withoutBlanks text.toList) :
      EquationOutcome text (.error .missingEquals)
  | rightSideNotNumber {left right : List Char} (cut : IsCut text left right)
      (hright : ¬ IsFiniteLiteral right) :
      EquationOutcome text (.error (.rightSideNotNumber (String.ofList right)))
  /-- The leftmost fragment that is at fault is reported. -/
  | badTerm {left right f : List Char} {before after : List (List Char)}
      (cut : IsCut text left right) (hright : IsFiniteLiteral right)
      (split : fragments left = before ++ f :: after) (hbefore : ∀ g ∈ before, IsTerm g)
      (hf : ¬ IsTerm f) : EquationOutcome text (.error (.badTerm (String.ofList f) (kindOf f)))
  | noUniqueSolution {parts : List (TermKind × Float)} {rhs : Float}
      (equation : IsEquation text parts rhs)
      (small : (total (valuesOf .unknown parts)).abs < 1e-12) :
      EquationOutcome text (.error .noUniqueSolution)
  | solved {parts : List (TermKind × Float)} {rhs : Float} (equation : IsEquation text parts rhs)
      (large : ¬ (total (valuesOf .unknown parts)).abs < 1e-12) :
      EquationOutcome text
        (.ok ((rhs - total (valuesOf .constant parts)) / total (valuesOf .unknown parts)))

/-- What is reported of a left side is a piece between two signs, with the minus in front of it if
it has one. -/
structure IsPiece (f : List Char) : Prop where
  ne_nil : f ≠ []
  chars : ∀ c ∈ f, c ≠ '+' ∧ c ≠ '=' ∧ isBlank c = false
  minus : '-' ∉ f.tail

end Reckoner
