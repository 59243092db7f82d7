import Reckoner.Expr
import Reckoner.Text.Numeral

/-!
# The grammar of expressions

A sum is made of products, a product of powers, a power of signed operands; sums and products group
to the left and powers to the right. `Derives level cs e` states that the text `cs`, without blanks,
is an expression of this level with the tree `e`. It says nothing about how such a text is read.
-/

namespace Reckoner

/-- ASCII digits with at most one point among them, and at least one digit. -/
structure IsNumeral (run : List Char) : Prop where
  chars : ∀ c ∈ run, c.isDigit ∨ c = '.'
  point : run.count '.' ≤ 1
  digit : ∃ c ∈ run, c.isDigit

/-- What a text is read as, the looser levels first. -/
inductive Level where
  | sum
  | product
  | power
  | signed
  deriving DecidableEq, Repr

inductive Derives : Level → List Char → Expr → Prop where
  | number {run : List Char} {value : Float} (numeral : IsNumeral run)
      (reads : Numeral.value run = .ok value) : Derives .signed run (.number value)
  | group {cs : List Char} {e : Expr} (inner : Derives .sum cs e) :
      Derives .signed ('(' :: cs ++ [')']) e
  | neg {cs : List Char} {e : Expr} (operand : Derives .signed cs e) :
      Derives .signed ('-' :: cs) (.neg e)
  | ofSigned {cs : List Char} {e : Expr} (h : Derives .signed cs e) : Derives .power cs e
  | pow {cs ds : List Char} {l r : Expr} (left : Derives .signed cs l)
      (right : Derives .power ds r) : Derives .power (cs ++ '^' :: ds) (.binary .pow l r)
  | ofPower {cs : List Char} {e : Expr} (h : Derives .power cs e) : Derives .product cs e
  | product {op : BinaryOp} {cs ds : List Char} {l r : Expr} (hop : op = .mul ∨ op = .div)
      (left : Derives .product cs l) (right : Derives .power ds r) :
      Derives .product (cs ++ op.symbol :: ds) (.binary op l r)
  | ofProduct {cs : List Char} {e : Expr} (h : Derives .product cs e) : Derives .sum cs e
  | sum {op : BinaryOp} {cs ds : List Char} {l r : Expr} (hop : op = .add ∨ op = .sub)
      (left : Derives .sum cs l) (right : Derives .product ds r) :
      Derives .sum (cs ++ op.symbol :: ds) (.binary op l r)

end Reckoner
