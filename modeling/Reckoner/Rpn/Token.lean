import Reckoner.Number.Layout
import Reckoner.Operator
import Reckoner.Text.Literal

/-!
# Tokens of reverse Polish notation

An expression in reverse Polish notation is a list of numbers and operators in which every operator
stands after its operands, so that no parentheses are needed. `readable` writes such a list in one
line with single spaces, the numbers as in the working.
-/

namespace Reckoner

/-- A number or an operator. -/
inductive Token where
  | number (value : Float)
  | operator (op : Operator)
  deriving DecidableEq, Repr

namespace Token

def text : Token → String
  | number value => stepText value
  | operator op => op.symbol

/-- Reads a token: the symbol of an operator, or else a number. -/
def ofText? (text : String) : Option Token :=
  match Operator.ofSymbol? text with
  | some op => some (operator op)
  | none => (readDouble text).map number

theorem text_ne_empty (t : Token) : t.text ≠ "" := by
  cases t with
  | number value => exact stepText_ne_empty value
  | operator op => rcases op with _ | (_ | _ | _ | _ | _) <;> decide

end Token

/-- The tokens in one line. -/
def readable (tokens : List Token) : String :=
  String.intercalate " " (tokens.map Token.text)

theorem readable_ne_empty {tokens : List Token} (h : tokens ≠ []) : readable tokens ≠ "" := by
  cases tokens with
  | nil => exact absurd rfl h
  | cons t tokens =>
    rw [readable, List.map_cons]
    cases tokens with
    | nil =>
      rw [List.map_nil, String.intercalate_singleton]
      exact t.text_ne_empty
    | cons u tokens =>
      rw [List.map_cons, String.intercalate_cons_cons]
      simp [t.text_ne_empty]

end Reckoner
