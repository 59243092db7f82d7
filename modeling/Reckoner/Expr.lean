import Reckoner.Rpn.Evaluation

/-!
# Expressions as trees

An expression is a number, an expression with a sign, or two expressions with an operator between
them. `tokens` lists it in reverse Polish notation, `value` is its value and `steps` the working,
the operands of every operator before the operator. `evaluate_tokens` states that the stack machine
computes both from the list.
-/

namespace Reckoner

inductive Expr where
  | number (value : Float)
  | neg (operand : Expr)
  | binary (op : BinaryOp) (left right : Expr)
  deriving DecidableEq, Repr

namespace Expr

def tokens : Expr → List Token
  | number value => [.number value]
  | neg e => e.tokens ++ [.operator .neg]
  | binary op l r => l.tokens ++ r.tokens ++ [.operator (.binary op)]

def value : Expr → Float
  | number value => value
  | neg e => -e.value
  | binary op l r => op.apply l.value r.value

def steps : Expr → List Step
  | number _ => []
  | neg e => e.steps ++ [.negation e.value]
  | binary op l r => l.steps ++ r.steps ++ [.operation op l.value r.value]

/-- The tokens of an expression put its value on the stack and make its steps. -/
theorem transduce_tokens (e : Expr) (stack : List Float) :
    transduce Step.ofToken stack e.tokens = .ok (e.steps, e.value :: stack) := by
  induction e generalizing stack with
  | number value => rfl
  | neg e ih =>
    rw [tokens, transduce_append, ih]
    rfl
  | binary op l r ihl ihr =>
    rw [tokens, transduce_append, transduce_append, ihl, Expr.steps]
    show (transduce Step.ofToken (l.value :: stack) r.tokens >>= _) >>= _ = _
    rw [ihr]
    rfl

theorem evaluate_tokens (e : Expr) : evaluate e.tokens = .ok (e.value, e.steps) := by
  rw [evaluate, transduce_tokens]
  rfl

end Expr

end Reckoner
