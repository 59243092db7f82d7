import Reckoner.Rpn.Lexeme
import Reckoner.Rpn.Token

/-!
# Numbers and operators, counted

The numbers and the operators of a list of tokens, and those that are written in a text. Whether a
minus in a text is a sign or a subtraction is said by the character before it alone.
-/

namespace Reckoner

def Token.number? : Token → Option Float
  | number value => some value
  | operator _ => none

def Token.operator? : Token → Option Operator
  | number _ => none
  | operator op => some op

def numbers (tokens : List Token) : List Float :=
  tokens.filterMap Token.number?

def operators (tokens : List Token) : List Operator :=
  tokens.filterMap Token.operator?

def Operator.isBinary : Operator → Bool
  | neg => false
  | binary _ => true

def Lexeme.numeral? : Lexeme → Option (List Char)
  | number run => some run
  | _ => none

/-- The numbers that are written in a text, from left to right. -/
def numerals (cs : List Char) : List (List Char) :=
  (lexemes cs).filterMap Lexeme.numeral?

def isOperatorChar (c : Char) : Bool :=
  (BinaryOp.ofChar? c).isSome

/-- After this character, or at the start of the text, a minus is a sign. -/
def signAfter : Option Char → Bool
  | none => true
  | some c => isOperatorChar c || c = '('

/-- The operators that are written in a text which stands after this character. -/
def writtenAfter (before : Option Char) : List Char → List Operator
  | [] => []
  | c :: cs =>
    match BinaryOp.ofChar? c with
    | some op =>
      (if op = .sub ∧ signAfter before then .neg else .binary op) :: writtenAfter (some c) cs
    | none => writtenAfter (some c) cs

/-- The operators that are written in a text, from left to right. -/
def written (cs : List Char) : List Operator :=
  writtenAfter none cs

@[simp]
theorem numbers_append (ts us : List Token) : numbers (ts ++ us) = numbers ts ++ numbers us :=
  List.filterMap_append

@[simp]
theorem operators_append (ts us : List Token) :
    operators (ts ++ us) = operators ts ++ operators us :=
  List.filterMap_append

@[simp]
theorem numbers_operator_cons (op : Operator) (tokens : List Token) :
    numbers (.operator op :: tokens) = numbers tokens := rfl

@[simp]
theorem operators_number_cons (v : Float) (tokens : List Token) :
    operators (.number v :: tokens) = operators tokens := rfl

@[simp]
theorem operators_operator_cons (op : Operator) (tokens : List Token) :
    operators (.operator op :: tokens) = op :: operators tokens := rfl

/-- There is nothing else in a list of tokens. -/
theorem length_eq_numbers_add_operators (tokens : List Token) :
    tokens.length = (numbers tokens).length + (operators tokens).length := by
  induction tokens with
  | nil => rfl
  | cons t tokens ih =>
    rw [List.length_cons, ih]
    cases t with
    | number v => exact Nat.add_right_comm ..
    | operator op => rfl

theorem writtenAfter_operator (before : Option Char) (op : BinaryOp) (cs : List Char) :
    writtenAfter before (op.symbol :: cs) =
      (if op = .sub ∧ signAfter before then .neg else .binary op) ::
        writtenAfter (some op.symbol) cs := by
  rw [writtenAfter, BinaryOp.ofChar?_symbol]

theorem length_writtenAfter (before : Option Char) (cs : List Char) :
    (writtenAfter before cs).length = cs.countP isOperatorChar := by
  induction cs generalizing before with
  | nil => rfl
  | cons c cs ih =>
    rw [writtenAfter, List.countP_cons, isOperatorChar]
    cases BinaryOp.ofChar? c with
    | none => exact ih (some c)
    | some op => exact congrArg (· + 1) (ih (some c))

/-- A number has no operators, and after it a minus is a subtraction. -/
theorem writtenAfter_run {run : List Char} (hrun : ∀ c ∈ run, c.isDigit ∨ c = '.') (hne : run ≠ [])
    (before : Option Char) (cs : List Char) :
    ∃ b, signAfter b = false ∧ writtenAfter before (run ++ cs) = writtenAfter b cs := by
  induction run generalizing before with
  | nil => exact absurd rfl hne
  | cons c run ih =>
    have hchar : BinaryOp.ofChar? c = none ∧ c ≠ '(' := by
      rcases hrun c List.mem_cons_self with hd | rfl
      · refine ⟨?_, ne_of_isDigit hd rfl⟩
        cases hop : BinaryOp.ofChar? c with
        | none => rfl
        | some op =>
          obtain rfl := BinaryOp.ofChar?_eq_some_iff.mp hop
          cases op <;> cases hd
      · exact ⟨rfl, by decide⟩
    have hstep : writtenAfter before (c :: run ++ cs) = writtenAfter (some c) (run ++ cs) := by
      rw [List.cons_append, writtenAfter, hchar.1]
    by_cases hrest : run = []
    · subst hrest
      refine ⟨some c, ?_, hstep⟩
      simp [signAfter, isOperatorChar, hchar]
    · obtain ⟨b, hb, heq⟩ := ih (fun d hd => hrun d (List.mem_cons_of_mem c hd)) hrest (some c)
      exact ⟨b, hb, hstep.trans heq⟩

end Reckoner
