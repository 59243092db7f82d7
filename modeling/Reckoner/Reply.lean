import Reckoner.Calculation
import Reckoner.Equation

/-!
# Replies

What is answered to a text: an expression gets its value with the working, an equation its
solution, and a text with a fault the message of the fault. The text is repeated as it was typed.
-/

namespace Reckoner

inductive Reply where
  | evaluated (expression : String) (steps : List String) (result : Float)
  | solved (equation : String) (x : Float)
  | refused (message : String)
  deriving DecidableEq, Repr

namespace Reply

def ofCalculation (text : String) : Except Fault Calculation → Reply
  | .ok c => evaluated text (c.steps.map Step.text) c.value
  | .error fault => refused fault.message

def toExpression (text : String) : Reply :=
  ofCalculation text (calculate text)

def ofSolution (text : String) : Except Fault Float → Reply
  | .ok x => solved text x
  | .error fault => refused fault.message

def toEquation (text : String) : Reply :=
  ofSolution text (solveEquation text)

end Reply

end Reckoner
