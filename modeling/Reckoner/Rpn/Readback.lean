import Mathlib.Data.List.Forall2
import Reckoner.Number.Whole
import Reckoner.Rpn.Token

/-!
# What a line of tokens shows

A line is cut at its spaces, and each piece is read by itself, as an operator or else as a number.
The number that is read is the one that was shown, `shownValue`: a number near a whole one is shown
as that whole number, zero without a sign, and any other as it is.
-/

namespace Reckoner

open Binary64

/-- The number that the text of the working stands for. -/
def shownValue (x : Float) : Float :=
  if (x - roundWhole x).abs < 1e-9 then
    if rational (roundWhole x) = 0 then 0 else roundWhole x
  else x

def pieces (line : String) : List String :=
  (line.toList.splitOn ' ').map String.ofList

/-- Reads the pieces of a line, if all of them are tokens. -/
def readTokens? (line : String) : Option (List Token) :=
  (pieces line).mapM Token.ofText?

namespace Token

def shown : Token → Token
  | number v => number (shownValue v)
  | operator op => operator op

/-- The piece is the symbol of an operator where the token is this operator, and of no other; where
the token is a number, the piece is read as the number that is shown. -/
structure IsPiece (t : Token) (piece : String) : Prop where
  symbol_iff : ∀ op : Operator, piece = op.symbol ↔ t = operator op
  reads : ∀ v, t = number v → readDouble piece = some (shownValue v)

/-- The same operator, or numbers with the same text. -/
inductive Alike : Token → Token → Prop where
  | number {v w : Float} (h : stepText v = stepText w) : Alike (.number v) (.number w)
  | operator (op : Operator) : Alike (.operator op) (.operator op)

/-- Nothing of the token is lost in its text. -/
inductive IsExact : Token → Prop where
  | operator (op : Operator) : IsExact (.operator op)
  | notANumber : IsExact (.number notANumber)
  | infinite {v : Float} (h : v = infinity ∨ v = -infinity) : IsExact (.number v)
  | whole {v : Float} (finite : IsFinite v) (whole : IsWhole v) (sign : v ≠ -0) :
      IsExact (.number v)
  | far {v : Float} (finite : IsFinite v) (far : FarFromWhole v) : IsExact (.number v)

end Token

end Reckoner
