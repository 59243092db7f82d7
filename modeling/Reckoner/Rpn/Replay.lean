import Reckoner.Number.Whole
import Reckoner.Rpn.Working
import Reckoner.Text.Literal

/-!
# Lines that repeat the calculation

A line of the working is computed again from its texts alone: its operands are read back, the
operator is applied, and the value is written (`Line.Replays`). `Step.IsShown` says that the texts of
the operands show all that the value depends on.
-/

namespace Reckoner

/-- The text of the number in the working is exact, the sign of a zero apart. -/
structure IsShown (x : Float) : Prop where
  isFinite : IsFinite x
  exact : IsWhole x ∨ FarFromWhole x

/-- What is computed from the texts of the operands has the text of the result. -/
def Line.Replays : Line String → Prop
  | negation operand result => ∃ x, readDouble operand = some x ∧ stepText (-x) = result
  | operation op left right result =>
    ∃ x y, readDouble left = some x ∧ readDouble right = some y ∧
      stepText (op.apply x y) = result

/-- The sign of a zero, which is not shown, matters where something else is divided by the zero, and
it may matter to a power. -/
def Step.IsShown : Step → Prop
  | negation operand => IsFinite operand
  | operation op left right =>
    Reckoner.IsShown left ∧ Reckoner.IsShown right ∧
      (op = .div → right = -0 → rational left = 0) ∧ (op = .pow → left ≠ -0 ∧ right ≠ -0)

end Reckoner
