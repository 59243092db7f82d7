import Reckoner.Text.Numeral

/-!
# Lexemes of an expression

A text without blanks is cut into numerals, operator characters and parentheses. The cut never
fails: a character that belongs to no expression is a lexeme of its own, and a run without a digit
is a numeral like any other. Which of several faults is reported is decided by whoever reads the
lexemes in order.

`flatMap_chars_lexemes` states that the lexemes spell the text.
-/

namespace Reckoner

inductive Lexeme where
  /-- A longest run of digits with at most one point. -/
  | number (run : List Char)
  /-- An operator character; a minus may turn out to be a sign. -/
  | operator (op : BinaryOp)
  | opening
  | closing
  | foreign (c : Char)
  deriving DecidableEq, Repr

namespace Lexeme

/-- The lexeme that a character forms by itself, when it starts no numeral. -/
def ofChar (c : Char) : Lexeme :=
  if c = '(' then opening
  else if c = ')' then closing
  else match BinaryOp.ofChar? c with
    | some op => operator op
    | none => foreign c

def chars : Lexeme → List Char
  | number run => run
  | operator op => [op.symbol]
  | opening => ['(']
  | closing => [')']
  | foreign c => [c]

/-- With a number or a group an operand starts. -/
def startsOperand : Lexeme → Bool
  | number _ | opening => true
  | _ => false

def endsOperand : Lexeme → Bool
  | number _ | closing => true
  | _ => false

theorem chars_ofChar (c : Char) : (ofChar c).chars = [c] := by
  unfold ofChar
  split
  · simp_all [chars]
  · split
    · simp_all [chars]
    · split
      · simp [chars, BinaryOp.ofChar?_eq_some_iff.mp ‹_›]
      · rfl

end Lexeme

def lexemes : List Char → List Lexeme
  | [] => []
  | c :: cs =>
    if _h : Numeral.isStart c then
      .number (takeRun true (c :: cs)).1 :: lexemes (takeRun true (c :: cs)).2
    else .ofChar c :: lexemes cs
termination_by cs => cs.length
decreasing_by
  · exact Numeral.length_rest_lt ‹_› cs
  · simp

theorem flatMap_chars_lexemes (cs : List Char) : (lexemes cs).flatMap Lexeme.chars = cs := by
  fun_induction lexemes cs with
  | case1 => rfl
  | case2 c cs _ ih => simp [ih, Lexeme.chars, takeRun_append]
  | case3 c cs _ ih => simp [ih, Lexeme.chars_ofChar]

end Reckoner
