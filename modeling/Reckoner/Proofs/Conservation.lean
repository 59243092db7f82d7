import Reckoner.Number.Grid.Bits
import Reckoner.Proofs.Lexemes
import Reckoner.Reply
import Reckoner.Rpn.Conversion.Lemmas
import Reckoner.Rpn.Evaluation.Lemmas
import Reckoner.Rpn.Inventory

/-!
# The conversion loses, invents and reorders nothing

`Conserves` states what the tokens of a text have to do with the text, well-formed or not: the
numbers are those of the text in their order, and the operators are those of the text in some order.
`toRpn_conserves` says that this holds of every text that is converted, and what follows for the
texts that are evaluated.

The invariant is that what was put out, what is held and what is not read yet contain the same
operators together at every lexeme (`operators_of_transduce`).
-/

namespace Reckoner

open Conversion

/-! ### Numbers -/

theorem numbers_heldTokens (held : List Held) : numbers (heldTokens held) = [] := by
  induction held with
  | nil => rfl
  | cons h held ih =>
    cases h with
    | opening => exact ih
    | operator op => exact ih

/-- Nothing but operators is released. -/
theorem numbers_release (ready : Operator → Bool) (held : List Held) :
    numbers (release ready held).1 = [] := by
  have h := congrArg numbers (release_tokens ready held)
  rw [numbers_append, numbers_heldTokens, numbers_heldTokens, List.append_nil] at h
  exact h

theorem numbers_of_transduce {c last : Conversion} {ls : List Lexeme} {out : List Token}
    (h : transduce step c ls = .ok (out, last)) :
    (ls.filterMap Lexeme.numeral?).map Numeral.value = (numbers out).map .ok := by
  induction ls generalizing c out with
  | nil =>
    cases h
    rfl
  | cons l ls ih =>
    obtain ⟨written, next, rest, hstep, hrest, rfl⟩ := transduce_cons_eq_ok.mp h
    rw [numbers_append, List.map_append, ← ih hrest]
    obtain ⟨held, signPlace⟩ := c
    obtain ⟨run, v, rfl, hv, rfl, -⟩ | ⟨op, rfl, rfl, -⟩ | ⟨rfl, rfl, -⟩ |
      ⟨below, rfl, hrelease, -⟩ := step_cases hstep
    · show Numeral.value run :: _ = _
      rw [hv]
      rfl
    · rw [numbers_release]
      rfl
    · rfl
    · have hnone := numbers_release (fun _ => true) held
      rw [hrelease] at hnone
      rw [hnone]
      rfl

/-- A numeral has no sign, and its value is a number, possibly an infinity. -/
theorem toBits_of_value {run : List Char} {v : Float} (h : Numeral.value run = .ok v) :
    v.toBits.toNat ≤ Binary64.infinityIndex := by
  unfold Numeral.value at h
  split at h
  · cases h
    exact (Binary64.toNat_toBits_floatOfIndex _).trans_le (Nat.min_le_right ..)
  · cases h

/-! ### Operators -/

theorem operators_release (ready : Operator → Bool) (held : List Held) :
    operators (release ready held).1 ++ operators (heldTokens (release ready held).2) =
      operators (heldTokens held) := by
  rw [← operators_append, release_tokens]

theorem takeRun_ne_nil {d : Char} (h : Numeral.isStart d = true) (cs : List Char) :
    (takeRun true (d :: cs)).1 ≠ [] := by
  intro hnil
  have happend := takeRun_append true (d :: cs)
  have hlt := Numeral.length_rest_lt h cs
  rw [hnil, List.nil_append] at happend
  rw [happend] at hlt
  exact Nat.lt_irrefl _ hlt

/-- Whether a minus is a sign is known in the conversion from the lexeme before it, in the text from
the character before it. -/
theorem operators_of_transduce {cs : List Char} {c last : Conversion} {out : List Token}
    {before : Option Char} (hplace : c.signPlace = signAfter before)
    (h : transduce step c (lexemes cs) = .ok (out, last)) :
    (operators (out ++ heldTokens last.held)).Perm
      (operators (heldTokens c.held) ++ writtenAfter before cs) := by
  fun_induction lexemes cs generalizing c out before with
  | case1 =>
    cases h
    exact .of_eq (List.append_nil _).symm
  | case2 d cs hd ih =>
    obtain ⟨written, next, rest, hstep, hrest, rfl⟩ := transduce_cons_eq_ok.mp h
    obtain ⟨held, signPlace⟩ := c
    obtain ⟨b, hb, hwritten⟩ := writtenAfter_run (fun _ => mem_takeRun) (takeRun_ne_nil hd cs)
      before (takeRun true (d :: cs)).2
    rw [takeRun_append] at hwritten
    obtain ⟨run, v, -, -, rfl, rfl⟩ | ⟨op, hl, -⟩ | ⟨hl, -⟩ | ⟨below, hl, -⟩ := step_cases hstep
    · rw [hwritten, List.append_assoc, operators_append]
      exact ih (c := ⟨held, false⟩) hb.symm hrest
    all_goals cases hl
  | case3 d cs hd ih =>
    obtain ⟨released, next, rest, hstep, hrest, rfl⟩ := transduce_cons_eq_ok.mp h
    obtain ⟨held, signPlace⟩ := c
    obtain rfl : signPlace = signAfter before := hplace
    have hchars : (Lexeme.ofChar d).chars = [d] := Lexeme.chars_ofChar d
    rw [List.append_assoc, operators_append]
    obtain ⟨run, v, hl, -⟩ | ⟨op, hl, rfl, rfl⟩ | ⟨hl, rfl, rfl⟩ | ⟨below, hl, hrelease, rfl⟩ :=
      step_cases hstep
    · exact absurd hl (ofChar_ne_number d run)
    · rw [hl] at hchars
      obtain rfl : op.symbol = d := by simpa [Lexeme.chars] using hchars
      have hsign : signAfter (some op.symbol) = true := by simp [signAfter, isOperatorChar]
      have hlater := ih hsign.symm hrest
      have hreleased := operators_release (role (signAfter before) op).yieldsTo held
      -- the operator that is read goes below those that it releases, and on top of the others
      have hrole : (if op = .sub ∧ signAfter before then Operator.neg else .binary op) =
          role (signAfter before) op := by
        simp only [role, and_comm]
      rw [writtenAfter_operator, hrole, ← hreleased, List.append_assoc]
      refine List.Perm.append_left _ (hlater.trans ?_)
      exact List.perm_middle.symm
    · rw [hl] at hchars
      obtain rfl : '(' = d := by simpa [Lexeme.chars] using hchars
      exact ih (c := ⟨.opening :: held, true⟩) rfl hrest
    · rw [hl] at hchars
      obtain rfl : ')' = d := by simpa [Lexeme.chars] using hchars
      have hreleased := operators_release (fun _ => true) held
      rw [hrelease] at hreleased
      rw [← hreleased, List.append_assoc]
      exact List.Perm.append_left _ (ih (c := ⟨below, false⟩) rfl hrest)

/-! ### Whole texts -/

/-- The tokens `out` contain what is written in the text `cs`. -/
structure Conserves (cs : List Char) (out : List Token) : Prop where
  /-- The numbers of the text have a value, and these values are put out in their order. -/
  numbers : (numerals cs).map Numeral.value = (Reckoner.numbers out).map .ok
  /-- They have no sign, and none of them fails to be a number. -/
  unsigned : ∀ v ∈ Reckoner.numbers out, v.isNaN = false ∧ v.toBits.toNat < Binary64.signWeight
  operators : (Reckoner.operators out).Perm (written cs)
  /-- Nothing else is put out, in particular no parenthesis. -/
  length : out.length = (numerals cs).length + cs.countP isOperatorChar

theorem conserves_of_toRpn {cs : List Char} {out : List Token} (h : toRpn cs = .ok out) :
    Conserves cs out := by
  obtain ⟨first, last, rest, hrun, hfinish, rfl⟩ := exists_of_toRpn h
  obtain ⟨rfl, -⟩ := eq_of_finish hfinish
  have hnumbers : (numerals cs).map Numeral.value =
      (numbers (first ++ heldTokens last.held)).map .ok := by
    rw [numbers_append, numbers_heldTokens, List.append_nil]
    exact numbers_of_transduce hrun
  have hoperators : (operators (first ++ heldTokens last.held)).Perm (written cs) :=
    operators_of_transduce (c := .start) rfl hrun
  refine ⟨hnumbers, fun v hv => ?_, hoperators, ?_⟩
  · have hmem : .ok v ∈ (numerals cs).map Numeral.value := by
      rw [hnumbers]
      exact List.mem_map_of_mem hv
    obtain ⟨run, -, hrun⟩ := List.mem_map.mp hmem
    have hbits := toBits_of_value hrun
    have hlt : v.toBits.toNat < Binary64.signWeight := Nat.lt_of_le_of_lt hbits (by decide)
    exact ⟨Binary64.isNaN_eq_false (by rw [Nat.mod_eq_of_lt hlt]; exact hbits), hlt⟩
  · have hcount := congrArg List.length hnumbers
    rw [List.length_map, List.length_map] at hcount
    rw [length_eq_numbers_add_operators, hoperators.length_eq, hcount]
    exact congrArg _ (length_writtenAfter none cs)

/-! ### Evaluation -/

theorem length_steps_of_ofToken {stack stack' : List Float} {t : Token} {steps : List Step}
    (h : Step.ofToken stack t = .ok (steps, stack')) : steps.length = (operators [t]).length := by
  unfold Step.ofToken at h
  split at h <;> cases h <;> rfl

/-- Every operator makes one step. -/
theorem length_steps_of_transduce {stack stack' : List Float} {tokens : List Token}
    {steps : List Step} (h : transduce Step.ofToken stack tokens = .ok (steps, stack')) :
    steps.length = (operators tokens).length := by
  induction tokens generalizing stack steps with
  | nil =>
    cases h
    rfl
  | cons t tokens ih =>
    obtain ⟨first, stack₁, rest, hstep, hrest, rfl⟩ := transduce_cons_eq_ok.mp h
    have happend := operators_append [t] tokens
    rw [List.singleton_append] at happend
    rw [happend, List.length_append, List.length_append, length_steps_of_ofToken hstep, ih hrest]

theorem gain_eq (tokens : List Token) :
    gain tokens = (numbers tokens).length - (operators tokens).countP Operator.isBinary := by
  induction tokens with
  | nil => rfl
  | cons t tokens ih =>
    rw [gain_cons, ih]
    cases t with
    | number v =>
      show 1 + _ = (((numbers tokens).length + 1 : Nat) : Int) - _
      rw [operators_number_cons]
      omega
    | operator op =>
      rw [numbers_operator_cons, operators_operator_cons, List.countP_cons]
      cases op with
      | neg => exact Int.zero_add _
      | binary op =>
        show -1 + _ = _ - ((_ + 1 : Nat) : Int)
        omega

theorem length_steps_of_evaluate {tokens : List Token} {value : Float} {steps : List Step}
    (h : evaluate tokens = .ok (value, steps)) : steps.length = (operators tokens).length :=
  length_steps_of_transduce (evaluate_eq_ok h)

theorem isBlank_of_isOperatorChar {c : Char} (h : isOperatorChar c = true) : isBlank c = false := by
  obtain ⟨op, hop⟩ := Option.isSome_iff_exists.mp h
  obtain rfl := BinaryOp.ofChar?_eq_some_iff.mp hop
  cases op <;> rfl

theorem countP_withoutBlanks (cs : List Char) :
    (withoutBlanks cs).countP isOperatorChar = cs.countP isOperatorChar := by
  unfold withoutBlanks
  rw [List.countP_filter]
  refine List.countP_congr fun c _ => ?_
  rw [Bool.and_eq_true]
  exact ⟨And.left, fun h => ⟨h, by rw [isBlank_of_isOperatorChar h]; rfl⟩⟩

/-- An evaluated text makes one step for each operator that is written in it, and has one number
more than operators between two operands. -/
theorem counts_of_calculate {text : String} {c : Calculation} (h : calculate text = .ok c) :
    c.steps.length = text.toList.countP isOperatorChar ∧
      (numerals (withoutBlanks text.toList)).length =
        (written (withoutBlanks text.toList)).countP Operator.isBinary + 1 := by
  obtain ⟨hconvert, hvalue⟩ := calculate_eq_ok h
  obtain ⟨cs, hnormal, htokens⟩ := bind_eq_ok.mp hconvert
  obtain rfl := withoutBlanks_eq_of_normalise hnormal
  have hconserves := conserves_of_toRpn htokens
  refine ⟨?_, ?_⟩
  · rw [length_steps_of_evaluate hvalue, hconserves.operators.length_eq, ← countP_withoutBlanks]
    exact length_writtenAfter none _
  · have hgain := (gain_eq c.tokens).symm.trans (gain_of_evaluate hvalue)
    have hnumbers := congrArg List.length hconserves.numbers
    rw [List.length_map, List.length_map] at hnumbers
    rw [hconserves.operators.countP_eq] at hgain
    omega

/-- Whatever is converted, the numbers of the text come out in their order and its operators in some
order, and nothing else does. Hence a text that is evaluated makes a step for each of its operator
characters, and has one number more than binary operators. -/
theorem toRpn_conserves :
    (∀ cs out, toRpn cs = .ok out → Conserves cs out) ∧
      ∀ text expression steps value,
        Reply.toExpression text = .evaluated expression steps value →
          steps.length = text.toList.countP isOperatorChar ∧
            (numerals (withoutBlanks text.toList)).length =
              (written (withoutBlanks text.toList)).countP Operator.isBinary + 1 := by
  refine ⟨fun _ _ h => conserves_of_toRpn h, fun text expression steps value h => ?_⟩
  rw [Reply.toExpression] at h
  cases hcalc : calculate text with
  | error fault =>
    rw [hcalc] at h
    cases h
  | ok c =>
    rw [hcalc] at h
    cases h
    rw [List.length_map]
    exact counts_of_calculate hcalc

/-- The tokens of `(-1.2.3)--4*`, which have no value. -/
def doubleMinus : List Token :=
  [.number 1.2, .number 0.3, .operator .neg, .number 4, .operator .neg, .operator (.binary .mul),
    .operator (.binary .sub)]

theorem toRpn_conserves_doubleMinus :
    (toRpn "(-1.2.3)--4*".toList = .ok doubleMinus ∧ Conserves "(-1.2.3)--4*".toList doubleMinus) ∧
      Reply.toExpression "2 - -3" = .evaluated "2 - -3" ["negate(3) = -3", "2 - -3 = 5"] 5 ∧
      ["negate(3) = -3", "2 - -3 = 5"].length = "2 - -3".toList.countP isOperatorChar ∧
      (numerals (withoutBlanks "2 - -3".toList)).length =
        (written (withoutBlanks "2 - -3".toList)).countP Operator.isBinary + 1 := by
  have hconvert : toRpn "(-1.2.3)--4*".toList = .ok doubleMinus := by decide +kernel
  have hreply : Reply.toExpression "2 - -3" =
      .evaluated "2 - -3" ["negate(3) = -3", "2 - -3 = 5"] 5 := by
    decide +kernel
  exact ⟨⟨hconvert, toRpn_conserves.1 _ _ hconvert⟩, hreply, toRpn_conserves.2 _ _ _ _ hreply⟩

end Reckoner
