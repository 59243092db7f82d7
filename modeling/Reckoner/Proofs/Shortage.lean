import Reckoner.Proofs.Conservation
import Reckoner.Proofs.Shapes
import Reckoner.Rpn.Working

/-!
# Where operands are missing

The height of tokens is the count of their numbers less the count of their binary operators. An
operator lacks operands where the height before it is less than the number of operands that it
takes. `evaluate_faults` says that the first such operator is the fault of an evaluation, and that
without one the only fault is a height other than one; that nothing is left over by the empty list
alone; and what follows for tokens of the same shape and for texts that are alike.

The invariant is that the stack is as high as what was read (`length_of_transduce`): with it,
reading a token either meets an operator that lacks operands, or moves all such operators to the
rest (`lacks_succ_iff`).
-/

namespace Reckoner

/-- The number of operands that an operator takes. -/
def Operator.arity : Operator → Nat
  | neg => 1
  | binary _ => 2

def height (tokens : List Token) : Int :=
  (numbers tokens).length - (operators tokens).countP Operator.isBinary

/-- `Lacks depth tokens i op`: in `tokens`, which are read with `depth` values on the stack, the
operator `op` stands after the first `i` tokens, and the height is too small for it there. -/
def Lacks (depth : Nat) (tokens : List Token) (i : Nat) (op : Operator) : Prop :=
  tokens[i]? = some (.operator op) ∧ depth + height (tokens.take i) < op.arity

/-- What can be at fault in tokens: the first operator that lacks operands, or, where no operator
lacks any, a height other than one. -/
inductive EvaluationFault (tokens : List Token) : Fault → Prop where
  | missing {i : Nat} {op : Operator} (lacks : Lacks 0 tokens i op)
      (first : ∀ j op', Lacks 0 tokens j op' → i ≤ j) :
      EvaluationFault tokens (.missingOperand op)
  | leftover {n : Nat} (enough : ∀ i op, ¬ Lacks 0 tokens i op) (left : height tokens = n)
      (hn : n ≠ 1) : EvaluationFault tokens (.leftoverValues n)

/-! ### Heights -/

section Heights

variable {depth : Nat} {t : Token} {tokens : List Token} {i : Nat} {op : Operator}

theorem height_eq_gain (tokens : List Token) : height tokens = gain tokens :=
  (gain_eq tokens).symm

theorem lacks_zero_iff : Lacks depth (t :: tokens) 0 op ↔ t = .operator op ∧ depth < op.arity := by
  have hnil : height [] = 0 := rfl
  simp only [Lacks, List.getElem?_cons_zero, List.take_zero, hnil]
  constructor
  · rintro ⟨ht, hlt⟩
    exact ⟨Option.some.inj ht, by omega⟩
  · rintro ⟨rfl, hlt⟩
    exact ⟨rfl, by omega⟩

/-- What the first token adds to the height is added for all that is behind it. -/
theorem lacks_succ_iff {depth' : Nat} (h : (depth' : Int) = depth + t.gain) :
    Lacks depth (t :: tokens) (i + 1) op ↔ Lacks depth' tokens i op := by
  simp only [Lacks, List.getElem?_cons_succ, List.take_succ_cons, height_eq_gain, gain_cons, h]
  rw [Int.add_assoc]

end Heights

/-! ### Reading tokens -/

section Runs

variable {stack stack' : List Float} {t : Token} {tokens : List Token} {steps : List Step}

theorem ofToken_outcome (stack : List Float) (t : Token) :
    (∃ op, t = .operator op ∧ stack.length < op.arity ∧
      Step.ofToken stack t = .error (.missingOperand op)) ∨
    ∃ steps stack', Step.ofToken stack t = .ok (steps, stack') ∧
      ∀ op, t = .operator op → op.arity ≤ stack.length := by
  cases t with
  | number v => exact .inr ⟨_, _, rfl, nofun⟩
  | operator op =>
    cases op with
    | neg =>
      match stack with
      | [] => exact .inl ⟨.neg, rfl, Nat.zero_lt_one, rfl⟩
      | a :: stack =>
        refine .inr ⟨_, _, rfl, ?_⟩
        rintro op ⟨⟩
        exact Nat.succ_pos stack.length
    | binary op =>
      match stack with
      | [] => exact .inl ⟨.binary op, rfl, Nat.zero_lt_two, rfl⟩
      | [_] => exact .inl ⟨.binary op, rfl, Nat.one_lt_two, rfl⟩
      | b :: a :: stack =>
        refine .inr ⟨_, _, rfl, ?_⟩
        rintro op ⟨⟩
        exact Nat.le_add_left 2 stack.length

theorem transduce_ofToken_outcome (stack : List Float) (tokens : List Token) :
    (∃ i op, transduce Step.ofToken stack tokens = .error (.missingOperand op) ∧
      Lacks stack.length tokens i op ∧ ∀ j op', Lacks stack.length tokens j op' → i ≤ j) ∨
    ∃ steps stack', transduce Step.ofToken stack tokens = .ok (steps, stack') ∧
      ∀ i op, ¬ Lacks stack.length tokens i op := by
  induction tokens generalizing stack with
  | nil => exact .inr ⟨[], stack, rfl, fun i op h => nomatch h.1⟩
  | cons t tokens ih =>
    rcases ofToken_outcome stack t with ⟨op, ht, hlt, hstep⟩ | ⟨first, stack₁, hstep, henough⟩
    · exact .inl ⟨0, op, transduce_cons_of_error hstep tokens, lacks_zero_iff.mpr ⟨ht, hlt⟩,
        fun j _ _ => Nat.zero_le j⟩
    have hzero (op : Operator) : ¬ Lacks stack.length (t :: tokens) 0 op := by
      intro h
      obtain ⟨ht, hlt⟩ := lacks_zero_iff.mp h
      exact Nat.not_lt.mpr (henough op ht) hlt
    have hsucc {i : Nat} {op : Operator} :
        Lacks stack.length (t :: tokens) (i + 1) op ↔ Lacks stack₁.length tokens i op :=
      lacks_succ_iff (length_of_ofToken hstep)
    rcases ih stack₁ with ⟨i, op, hrest, hlacks, hfirst⟩ | ⟨rest, stack', hrest, hnone⟩
    · refine .inl ⟨i + 1, op, ?_, hsucc.mpr hlacks, fun j op' h => ?_⟩
      · rw [transduce_cons_of_ok hstep, hrest]
        rfl
      · cases j with
        | zero => exact absurd h (hzero op')
        | succ j => exact Nat.succ_le_succ (hfirst j op' (hsucc.mp h))
    · have hrun := transduce_cons_eq_ok.mpr ⟨first, stack₁, rest, hstep, hrest, rfl⟩
      refine .inr ⟨first ++ rest, stack', hrun, fun j op h => ?_⟩
      cases j with
      | zero => exact hzero op h
      | succ j => exact hnone j op (hsucc.mp h)

/-- Every token leaves a value on the stack. -/
theorem eq_nil_of_transduce (h : transduce Step.ofToken stack tokens = .ok (steps, [])) :
    tokens = [] := by
  induction tokens generalizing stack steps with
  | nil => rfl
  | cons t tokens ih =>
    obtain ⟨first, stack₁, rest, hstep, hrest, -⟩ := transduce_cons_eq_ok.mp h
    obtain rfl := ih hrest
    cases hrest
    obtain ⟨v, -, -, hstack⟩ | ⟨s, below, -, -, -, hstack⟩ := Step.ofToken_cases hstep <;> cases hstack

end Runs

/-! ### Whole evaluations -/

section Evaluations

variable {tokens : List Token}

/-- The three ends of an evaluation: at the first operator that lacks operands, with one value, or
with another number of them. -/
theorem evaluate_cases (tokens : List Token) :
    (∃ i op, evaluate tokens = .error (.missingOperand op) ∧ Lacks 0 tokens i op ∧
      ∀ j op', Lacks 0 tokens j op' → i ≤ j) ∨
    (∃ r, evaluate tokens = .ok r ∧ (∀ i op, ¬ Lacks 0 tokens i op) ∧ height tokens = 1) ∨
    ∃ stack : List Float, evaluate tokens = .error (.leftoverValues stack.length) ∧
      (∀ i op, ¬ Lacks 0 tokens i op) ∧ height tokens = stack.length ∧ stack.length ≠ 1 ∧
      (stack = [] → tokens = []) := by
  rcases transduce_ofToken_outcome [] tokens with
    ⟨i, op, hrun, hlacks, hfirst⟩ | ⟨steps, stack, hrun, hnone⟩
  · refine .inl ⟨i, op, ?_, hlacks, hfirst⟩
    rw [evaluate, hrun]
    rfl
  have hlength := length_of_transduce hrun
  rw [← height_eq_gain, List.length_nil, Int.natCast_zero, Int.zero_add] at hlength
  refine .inr ?_
  rcases stack with - | ⟨a, - | ⟨b, stack⟩⟩
  · refine .inr ⟨[], ?_, hnone, hlength.symm, by simp, fun _ => eq_nil_of_transduce hrun⟩
    rw [evaluate, hrun]
    rfl
  · refine .inl ⟨(a, steps), ?_, hnone, hlength.symm⟩
    rw [evaluate, hrun]
    rfl
  · refine .inr ⟨a :: b :: stack, ?_, hnone, hlength.symm, by simp, by simp⟩
    rw [evaluate, hrun]
    rfl

theorem evaluate_eq_error_iff {fault : Fault} :
    evaluate tokens = .error fault ↔ EvaluationFault tokens fault := by
  rcases evaluate_cases tokens with ⟨i, op, heval, hlacks, hfirst⟩ | ⟨r, heval, hnone, hone⟩ |
    ⟨stack, heval, hnone, hheight, hne, -⟩
  · rw [heval]
    constructor
    · rintro ⟨⟩
      exact .missing hlacks hfirst
    · rintro (⟨hlacks', hfirst'⟩ | ⟨henough, -, -⟩)
      · obtain rfl := Nat.le_antisymm (hfirst _ _ hlacks') (hfirst' _ _ hlacks)
        have hop := hlacks.1.symm.trans hlacks'.1
        cases hop
        rfl
      · exact absurd hlacks (henough i op)
  · rw [heval]
    refine iff_of_false nofun ?_
    rintro (⟨hlacks, -⟩ | ⟨-, hheight, hne⟩)
    · exact hnone _ _ hlacks
    · omega
  · rw [heval]
    constructor
    · rintro ⟨⟩
      exact .leftover hnone hheight hne
    · rintro (⟨hlacks, -⟩ | ⟨-, hheight', -⟩)
      · exact absurd hlacks (hnone _ _)
      · rw [Int.natCast_inj.mp (hheight.symm.trans hheight')]

theorem evaluate_eq_nothing_iff : evaluate tokens = .error (.leftoverValues 0) ↔ tokens = [] := by
  constructor
  · intro h
    rcases evaluate_cases tokens with ⟨i, op, heval, -⟩ | ⟨r, heval, -⟩ |
      ⟨stack, heval, -, -, -, hnil⟩
    · cases heval.symm.trans h
    · cases heval.symm.trans h
    · have hlength := Fault.leftoverValues.inj (Except.error.inj (heval.symm.trans h))
      exact hnil (List.eq_nil_of_length_eq_zero hlength)
  · rintro rfl
    rfl

end Evaluations

/-- Tokens fail to be evaluated exactly by the first operator before which the height is too small
for it, or, where there is none, by a height other than one, which is zero for the empty list only.
The numbers have no part in this: tokens of the same shape are evaluated with the same number of
steps or have the same fault, and texts that differ only in their numerals are both evaluated or
refused with the same message. -/
theorem evaluate_faults :
    (∀ tokens fault, evaluate tokens = .error fault ↔ EvaluationFault tokens fault) ∧
      (∀ tokens, evaluate tokens = .error (.leftoverValues 0) ↔ tokens = []) ∧
      (∀ ts us, SameShape ts us →
        Agree (fun r r' => r.2.length = r'.2.length) (evaluate ts) (evaluate us)) ∧
      ∀ s t, AlikeTexts s t →
        (∃ steps value steps' value', Reply.toExpression s = .evaluated s steps value ∧
          Reply.toExpression t = .evaluated t steps' value' ∧ steps.length = steps'.length) ∨
        ∃ message, Reply.toExpression s = .refused message ∧
          Reply.toExpression t = .refused message :=
  ⟨fun _ _ => evaluate_eq_error_iff, fun _ => evaluate_eq_nothing_iff,
    fun _ _ => agree_evaluate, fun _ _ => toExpression_alike⟩

/-- A division by zero and one of infinities, and two sums that lack their right operand. -/
theorem evaluate_faults_divisions :
    (SameShape [.number 1, .number 0, .operator (.binary .div)]
        [.number Binary64.infinity, .number Binary64.infinity, .operator (.binary .div)] ∧
      Agree (fun r r' => r.2.length = r'.2.length)
        (evaluate [.number 1, .number 0, .operator (.binary .div)])
        (evaluate [.number Binary64.infinity, .number Binary64.infinity,
          .operator (.binary .div)])) ∧
    AlikeTexts "1/0+" "7 / .5+" ∧
      ∃ message, Reply.toExpression "1/0+" = .refused message ∧
        Reply.toExpression "7 / .5+" = .refused message := by
  have hshape : SameShape [.number 1, .number 0, .operator (.binary .div)]
      [.number Binary64.infinity, .number Binary64.infinity, .operator (.binary .div)] :=
    .cons rfl (.cons rfl (.cons rfl .nil))
  have hone : lexemes (withoutBlanks "1/0+".toList) =
      [.number ['1'], .operator .div, .number ['0'], .operator .add] := by decide +kernel
  have hseven : lexemes (withoutBlanks "7 / .5+".toList) =
      [.number ['7'], .operator .div, .number ['.', '5'], .operator .add] := by decide +kernel
  have hhalf : IsNumeral ['.', '5'] := ⟨by simp, by decide, '5', by simp, rfl⟩
  have halike : AlikeTexts "1/0+" "7 / .5+" := by
    rw [AlikeTexts, hone, hseven]
    exact .cons (.numerals (isNumeral_of_isDigit rfl) (isNumeral_of_isDigit rfl))
      (.cons (.same _) (.cons (.numerals (isNumeral_of_isDigit rfl) hhalf)
        (.cons (.same _) .nil)))
  refine ⟨⟨hshape, evaluate_faults.2.2.1 _ _ hshape⟩, halike, ?_⟩
  refine (evaluate_faults.2.2.2 _ _ halike).resolve_left ?_
  rintro ⟨steps, value, -, -, hvalue, -⟩
  have hrefused : Reply.toExpression "1/0+" =
      .refused (Fault.missingOperand (.binary .add)).message := by decide +kernel
  cases hrefused.symm.trans hvalue

end Reckoner
