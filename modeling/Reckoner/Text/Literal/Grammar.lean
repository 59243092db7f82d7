import Mathlib.Data.List.Infix
import Reckoner.Grammar

/-!
# The grammar of literals

How a literal is written: a sign or none, a numeral, and an exponent or none. `IsLiteral` says
nothing about how such a text is read. `HasSignedExponent` tells the literals whose exponent has a
sign from the others.
-/

namespace Reckoner

/-- One sign or none. -/
def IsSign (cs : List Char) : Prop :=
  cs = [] ∨ cs = ['+'] ∨ cs = ['-']

/-- Nothing, or the letter of the exponent with a sign or none and one digit or more. -/
inductive IsExponent : List Char → Prop where
  | absent : IsExponent []
  | present {letter : Char} {sign ds : List Char} (hletter : letter = 'e' ∨ letter = 'E')
      (hsign : IsSign sign) (digits : ∀ c ∈ ds, c.isDigit) (hne : ds ≠ []) :
      IsExponent (letter :: sign ++ ds)

/-- A literal without a sign in front of it. -/
inductive IsMagnitude : List Char → Prop where
  | mk {run exponent : List Char} (numeral : IsNumeral run) (hexponent : IsExponent exponent) :
      IsMagnitude (run ++ exponent)

inductive IsLiteral : List Char → Prop where
  | mk {sign cs : List Char} (hsign : IsSign sign) (magnitude : IsMagnitude cs) :
      IsLiteral (sign ++ cs)

/-- A sign stands right behind the letter of an exponent. -/
def HasSignedExponent (cs : List Char) : Prop :=
  ∃ letter ∈ ['e', 'E'], ∃ sign ∈ ['+', '-'], [letter, sign] <:+: cs

instance : DecidablePred HasSignedExponent := fun cs =>
  have (letter : Char) : Decidable (∃ sign ∈ ['+', '-'], [letter, sign] <:+: cs) :=
    List.decidableBEx _ _
  List.decidableBEx _ _

end Reckoner
