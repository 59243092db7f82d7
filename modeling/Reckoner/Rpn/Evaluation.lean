import Reckoner.Fault
import Reckoner.Rpn.Token
import Reckoner.Transducer

/-!
# Evaluating reverse Polish notation

A number is put on a stack of values; an operator takes its operands from the top, the right one
first, and puts its value in their place. Every operator applied is a step of the working, and the
steps, read in order, repeat the calculation. At the end the stack has to hold exactly one value.
-/

namespace Reckoner

/-- An operator applied to its operands. -/
inductive Step where
  | negation (operand : Float)
  | operation (op : BinaryOp) (left right : Float)
  deriving DecidableEq, Repr

namespace Step

def value : Step → Float
  | negation operand => -operand
  | operation op left right => op.apply left right

def text : Step → String
  | s@(negation operand) =>
    "negate(" ++ stepText operand ++ ") = " ++ stepText s.value
  | s@(operation op left right) =>
    stepText left ++ " " ++ op.symbol.toString ++ " " ++ stepText right ++ " = " ++ stepText s.value

end Step

/-- Reads one token: the step that is made, if any, and the stack after it. The latest value is on
the left of the stack. -/
def Step.ofToken : List Float → Token → Except Fault (List Step × List Float)
  | stack, .number value => .ok ([], value :: stack)
  | a :: stack, .operator .neg =>
    let s := negation a
    .ok ([s], s.value :: stack)
  | b :: a :: stack, .operator (.binary op) =>
    let s := operation op a b
    .ok ([s], s.value :: stack)
  | _, .operator op => .error (.missingOperand op)

/-- The value of tokens in reverse Polish notation, with the steps that lead to it. -/
def evaluate (tokens : List Token) : Except Fault (Float × List Step) := do
  match ← transduce Step.ofToken [] tokens with
  | (steps, [value]) => return (value, steps)
  | (_, stack) => throw (.leftoverValues stack.length)

end Reckoner
