import Reckoner.Text.Blank
import Reckoner.Text.Literal

/-!
# Linear equations

An equation has a sum of signed terms on the left of its first equals sign and one literal on the
right. A term with a letter `x`, in either case, counts for the coefficient of the unknown, any
other for the constant; `LinearForm` holds the two sums, each added up from left to right.
`solveEquation` gives the `x` with `a · x + b` equal to the right side.

The right side is read before the left one, and the terms in order, so that the first fault in
this sense is the one reported.
-/

namespace Reckoner

/-- The left side `a · x + b` of an equation. -/
structure LinearForm where
  a : Float
  b : Float
  deriving DecidableEq, Repr

namespace LinearForm

def zero : LinearForm := ⟨0, 0⟩

def isUnknown (c : Char) : Bool :=
  c = 'x' || c = 'X'

/-- The coefficient written by what is left of a term without its letters: nothing stands for one,
and a sign alone for one with this sign. -/
def coefficient? : List Char → Option Float
  | [] => some 1
  | ['+'] => some 1
  | ['-'] => some (-1)
  | cs => readLiteral cs

/-- Adds a term to the coefficient if it has the letter of the unknown, else to the constant. All
letters are taken out of a term before its coefficient is read. -/
def addTerm (form : LinearForm) (term : List Char) : Except Fault LinearForm :=
  if term.any isUnknown then
    match coefficient? (term.filter (!isUnknown ·)) with
    | some v => .ok { form with a := form.a + v }
    | none => .error (.badTerm (String.ofList term) .unknown)
  else
    match readLiteral term with
    | some v => .ok { form with b := form.b + v }
    | none => .error (.badTerm (String.ofList term) .constant)

/-- Adds terms one after the other, and tells after each of them how the sum stands and whether the
term had a fault. A term with a fault leaves the sum as it is. -/
def addTerms (form : LinearForm) : List (List Char) → List (LinearForm × Option Fault)
  | [] => []
  | term :: terms =>
    match form.addTerm term with
    | .ok next => (next, none) :: addTerms next terms
    | .error fault => (form, some fault) :: addTerms form terms

/-- A plus before every minus, so that every term starts at a plus. -/
def markTerms (cs : List Char) : List Char :=
  cs.flatMap fun c => if c = '-' then ['+', '-'] else [c]

/-- The terms of a sum, each with its minus if it has one; empty ones are left out. -/
def terms (cs : List Char) : List (List Char) :=
  ((markTerms cs).splitOn '+').filter (· ≠ [])

/-- Adds up the terms of a sum, given without blanks. -/
def ofText (cs : List Char) : Except Fault LinearForm :=
  (terms cs).foldlM addTerm zero

end LinearForm

/-- A coefficient nearer to zero than this counts as zero. -/
def leastCoefficient : Float := 1e-12

def solveEquation (text : String) : Except Fault Float := do
  let cs := withoutBlanks text.toList
  match cs.dropWhile (· ≠ '=') with
  | [] => throw .missingEquals
  | _ :: right =>
    match readLiteral right with
    | none => throw (.rightSideNotNumber (String.ofList right))
    | some rhs =>
      let form ← LinearForm.ofText (cs.takeWhile (· ≠ '='))
      if form.a.abs < leastCoefficient then throw .noUniqueSolution
      return (rhs - form.b) / form.a

end Reckoner
