import Reckoner.Rpn.Lexeme
import Reckoner.Rpn.Token
import Reckoner.Transducer

/-!
# From infix to reverse Polish notation

The lexemes of an expression are read once, from left to right. Numbers go to the output at once.
Operators and opening parentheses are held back, the latest on top: an operator is released to the
output when one that binds no tighter follows it, when the parenthesis around it closes, or at the
end of the text. A minus is a sign where no operand can stand before it: at the start, after an
operator, and after an opening parenthesis.

Whether the operators have their operands is not looked at here. The faults found are foreign
characters, runs without a digit and unmatched parentheses. The leftmost one is reported, where an
opening parenthesis is known to be unmatched at the end of the text only.
-/

namespace Reckoner

/-- What waits for its place in the output. -/
inductive Held where
  | opening
  | operator (op : Operator)
  deriving DecidableEq, Repr

structure Conversion where
  /-- The latest is first. -/
  held : List Held
  /-- A minus read next is a sign. -/
  signPlace : Bool
  deriving DecidableEq, Repr

namespace Conversion

def start : Conversion := ⟨[], true⟩

/-- Takes off the operators that are held on top, as long as they are `ready`. An opening
parenthesis ends this. -/
def release (ready : Operator → Bool) : List Held → List Token × List Held
  | .operator op :: held =>
    if ready op then
      let (released, rest) := release ready held
      (.operator op :: released, rest)
    else ([], .operator op :: held)
  | held => ([], held)

def role (signPlace : Bool) (op : BinaryOp) : Operator :=
  if signPlace ∧ op = .sub then .neg else .binary op

/-- Reads one lexeme: the tokens that go to the output, and what is held after it. -/
def step : Conversion → Lexeme → Except Fault (List Token × Conversion)
  | ⟨held, _⟩, .number run => do
    return ([.number (← Numeral.value run)], ⟨held, false⟩)
  | ⟨held, signPlace⟩, .operator op =>
    let incoming := role signPlace op
    let (released, rest) := release incoming.yieldsTo held
    .ok (released, ⟨.operator incoming :: rest, true⟩)
  | ⟨held, _⟩, .opening => .ok ([], ⟨.opening :: held, true⟩)
  | ⟨held, _⟩, .closing =>
    match release (fun _ => true) held with
    | (released, .opening :: rest) => .ok (released, ⟨rest, false⟩)
    | _ => .error (.unmatched .closing)
  | _, .foreign c => .error (.invalidCharacter c)

/-- Releases what is still held at the end of the text. -/
def finish (held : List Held) : Except Fault (List Token) :=
  match release (fun _ => true) held with
  | (released, []) => .ok released
  | _ => .error (.unmatched .opening)

end Conversion

/-- The tokens of an expression, given without blanks, in reverse Polish notation. -/
def toRpn (cs : List Char) : Except Fault (List Token) := do
  let (output, last) ← transduce Conversion.step .start (lexemes cs)
  return output ++ (← Conversion.finish last.held)

end Reckoner
