/-!
# Operators

Five binary operators with a character each, and the sign that is written like a subtraction.
The sign binds tightest, then powers, then products and quotients, then sums and differences.
Powers and signs chain from right to left, the others from left to right.
-/

namespace Reckoner

inductive BinaryOp where
  | add
  | sub
  | mul
  | div
  | pow
  deriving DecidableEq, Repr

namespace BinaryOp

def ofChar? : Char → Option BinaryOp
  | '+' => some add
  | '-' => some sub
  | '*' => some mul
  | '/' => some div
  | '^' => some pow
  | _ => none

def symbol : BinaryOp → Char
  | add => '+'
  | sub => '-'
  | mul => '*'
  | div => '/'
  | pow => '^'

/-- No operation fails: a division by zero or a power outside its domain gives an infinity or no
number, as for all doubles. -/
def apply : BinaryOp → Float → Float → Float
  | add, a, b => a + b
  | sub, a, b => a - b
  | mul, a, b => a * b
  | div, a, b => a / b
  | pow, a, b => Float.pow a b

@[simp]
theorem ofChar?_symbol (op : BinaryOp) : ofChar? op.symbol = some op := by
  cases op <;> rfl

theorem ofChar?_eq_some_iff {c : Char} {op : BinaryOp} : ofChar? c = some op ↔ c = op.symbol := by
  constructor
  · unfold ofChar?
    split <;> rintro ⟨⟩ <;> rfl
  · rintro rfl
    exact ofChar?_symbol op

end BinaryOp

inductive Operator where
  /-- The sign in front of an operand. -/
  | neg
  | binary (op : BinaryOp)
  deriving DecidableEq, Repr

namespace Operator

/-- The text of an operator where it stands after its operands: the sign is spelled out there, as
a minus would be taken for a subtraction. -/
def symbol : Operator → String
  | neg => "neg"
  | binary op => op.symbol.toString

def all : List Operator :=
  [neg, binary .add, binary .sub, binary .mul, binary .div, binary .pow]

def ofSymbol? (s : String) : Option Operator :=
  all.find? (·.symbol = s)

def precedence : Operator → Nat
  | neg => 4
  | binary .pow => 3
  | binary .mul | binary .div => 2
  | binary .add | binary .sub => 1

/-- Of two equal operators in a row the left one is applied first. -/
def leftAssociative : Operator → Bool
  | neg | binary .pow => false
  | binary _ => true

/-- `o`, when it is read, has `earlier` applied before it: `earlier` binds tighter, or as tight
and from left to right. -/
def yieldsTo (o earlier : Operator) : Bool :=
  if o.leftAssociative then o.precedence ≤ earlier.precedence
  else o.precedence < earlier.precedence

@[simp]
theorem ofSymbol?_symbol (o : Operator) : ofSymbol? o.symbol = some o := by
  rcases o with _ | (_ | _ | _ | _ | _) <;> rfl

end Operator

end Reckoner
