import Mathlib.Algebra.Field.Rat
import Reckoner.Text.Literal.Grammar

/-!
# What a literal stands for

`Spells cs negative q` states that the text `cs` is a literal of the grammar, that it has a minus in
front of it or not, and that its numeral and exponent together are the number `q`. It says nothing
about doubles, nor about how such a text is read.
-/

namespace Reckoner

inductive SpellsSign : List Char → Bool → Prop where
  | none : SpellsSign [] false
  | plus : SpellsSign ['+'] false
  | minus : SpellsSign ['-'] true

/-- Digits, and digits with a point anywhere among them, which divides the number by ten for every
digit behind it. -/
inductive SpellsNumeral : List Char → ℚ → Prop where
  | whole {ds : List Char} (digits : ∀ c ∈ ds, c.isDigit) (hne : ds ≠ []) :
      SpellsNumeral ds (Nat.ofDigitChars 10 ds 0 : Nat)
  | pointed {ds es : List Char} (digits : ∀ c ∈ ds ++ es, c.isDigit) (hne : ds ++ es ≠ []) :
      SpellsNumeral (ds ++ '.' :: es) ((Nat.ofDigitChars 10 (ds ++ es) 0 : Nat) / 10 ^ es.length)

/-- The power of ten that is written, which is `0` if nothing is. -/
inductive SpellsExponent : List Char → ℤ → Prop where
  | absent : SpellsExponent [] 0
  | present {letter : Char} {sign ds : List Char} {negative : Bool}
      (hletter : letter = 'e' ∨ letter = 'E') (hsign : SpellsSign sign negative)
      (digits : ∀ c ∈ ds, c.isDigit) (hne : ds ≠ []) :
      SpellsExponent (letter :: sign ++ ds)
        (if negative then -(Nat.ofDigitChars 10 ds 0 : Nat) else (Nat.ofDigitChars 10 ds 0 : Nat))

inductive Spells : List Char → Bool → ℚ → Prop where
  | mk {sign run exponent : List Char} {negative : Bool} {q : ℚ} {e : ℤ}
      (hsign : SpellsSign sign negative) (numeral : SpellsNumeral run q)
      (hexponent : SpellsExponent exponent e) :
      Spells (sign ++ (run ++ exponent)) negative (q * 10 ^ e)

end Reckoner
