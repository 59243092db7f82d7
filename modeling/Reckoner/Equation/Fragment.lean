import Reckoner.Equation.Summand
import Reckoner.Equation
import Reckoner.Text.Literal.Grammar

/-!
# Fragments of a sum

`fragments` cuts a text directly, before each minus and at each plus. `Denotes` says what a fragment
stands for: after its minus, if it has one, a literal is a constant, and a text with the letter of
the unknown is a coefficient, written by what is left of the text without the letters. `Contiguous`
is the narrower form in which the letters stand on one side of the coefficient.
-/

namespace Reckoner

open LinearForm (isUnknown)

def cut : List Char → List (List Char)
  | [] => [[]]
  | c :: cs =>
    if c = '+' then [] :: cut cs
    else if c = '-' then [] :: (cut cs).modifyHead ('-' :: ·)
    else (cut cs).modifyHead (c :: ·)

/-- The pieces of a text that are not empty, each with its minus if it has one. -/
def fragments (cs : List Char) : List (List Char) :=
  (cut cs).filter (· ≠ [])

/-- A text without the letters of the unknown in it. -/
def withoutLetters (cs : List Char) : List Char :=
  cs.filter (!isUnknown ·)

/-- A literal, or letters of the unknown with at most one literal, in front of all of them or behind
all of them. -/
inductive Contiguous : List Char → Prop where
  | constant {cs : List Char} (literal : IsMagnitude cs) : Contiguous cs
  | letters {xs : List Char} (hxs : ∀ x ∈ xs, isUnknown x) (hne : xs ≠ []) : Contiguous xs
  | before {cs xs : List Char} (literal : IsMagnitude cs) (hxs : ∀ x ∈ xs, isUnknown x)
      (hne : xs ≠ []) : Contiguous (cs ++ xs)
  | behind {cs xs : List Char} (literal : IsMagnitude cs) (hxs : ∀ x ∈ xs, isUnknown x)
      (hne : xs ≠ []) : Contiguous (xs ++ cs)

open Summand in
/-- What a fragment counts for, and with which value. -/
inductive Denotes : List Char → TermKind → Float → Prop where
  | constant (negative : Bool) {cs : List Char} {v : Float} (literal : IsMagnitude cs)
      (reads : readLiteral cs = some v) :
      Denotes (withMinus negative cs) .constant (signed negative v)
  | letters (negative : Bool) {xs : List Char} (hxs : ∀ x ∈ xs, isUnknown x) (hne : xs ≠ []) :
      Denotes (withMinus negative xs) .unknown (signed negative 1)
  | coefficient (negative : Bool) {cs : List Char} {v : Float} (letter : ∃ x ∈ cs, isUnknown x)
      (literal : IsMagnitude (withoutLetters cs))
      (reads : readLiteral (withoutLetters cs) = some v) :
      Denotes (withMinus negative cs) .unknown (signed negative v)

/-- The values of one kind, in their order. -/
def valuesOf (kind : TermKind) (parts : List (TermKind × Float)) : List Float :=
  parts.filterMap fun part => if part.1 = kind then some part.2 else none

end Reckoner
