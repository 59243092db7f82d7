import Reckoner.Proofs.Compilation
import Reckoner.Proofs.Placement
import Reckoner.Rpn.Evaluation.Lemmas

/-!
# Which texts are evaluated

Neither the conversion nor the evaluation looks at where the operands stand; only their number is
checked, by the height of the stack at the end. A text that puts one operand right behind another
can make up for it by an operator that lacks one elsewhere, and is evaluated although it is no
expression (`evaluated_juxtaposed`). This is the only way: among the texts that are evaluated, those
of the grammar are exactly those that keep their operands apart
(`derives_iff_evaluated_and_separated`).

The count behind this is `gain_lt_or_placed`: lexemes that keep operands apart gain at most one, and
one only if all of them are placed well.
-/

namespace Reckoner

open Conversion

/-- The most that the tokens still to come out can gain when operands are kept apart: what is held,
and one operand where it is due. -/
def Conversion.prospect : Conversion → Int
  | ⟨held, true⟩ => gain (heldTokens held) + 1
  | ⟨held, false⟩ => gain (heldTokens held)

theorem prospect_eq_of_release (ready : Operator → Bool) (held : List Held) :
    gain (release ready held).1 + gain (heldTokens (release ready held).2) =
      gain (heldTokens held) := by
  rw [← gain_append, release_tokens]

/-- A lexeme that starts no operand behind another one lowers the prospect, or is placed well. -/
theorem prospect_step {c next : Conversion} {l : Lexeme} {written : List Token}
    (hstep : step c l = .ok (written, next))
    (hstart : l.startsOperand = true → c.signPlace = true)
    (hnumeral : ∀ run v, l = .number run → Numeral.value run = .ok v → IsNumeral run) :
    gain written + next.prospect < c.prospect ∨
      gain written + next.prospect = c.prospect ∧
        ∀ ls, Placed next.signPlace (openings next.held) ls →
          Placed c.signPlace (openings c.held) (l :: ls) := by
  obtain ⟨held, signPlace⟩ := c
  obtain ⟨run, v, rfl, hv, rfl, rfl⟩ | ⟨op, rfl, rfl, rfl⟩ | ⟨rfl, rfl, rfl⟩ |
    ⟨below, rfl, hrelease, rfl⟩ := step_cases hstep
  · obtain rfl : signPlace = true := hstart rfl
    refine .inr ⟨?_, fun ls h => .number (hnumeral run v rfl hv) h⟩
    simp only [prospect, gain_cons, gain_nil, Token.gain]
    omega
  · have hreleased := prospect_eq_of_release (role signPlace op).yieldsTo held
    simp only [prospect, heldTokens, gain_cons, openings, openings_release]
    cases signPlace with
    | false =>
      have hgain : (Token.operator (role false op)).gain = -1 := by simp [role, Token.gain]
      exact .inr ⟨by simp only [hgain]; omega, fun ls h => .operator op h⟩
    | true =>
      by_cases hsub : op = .sub
      · subst hsub
        have hgain : (Token.operator (role true .sub)).gain = 0 := rfl
        exact .inr ⟨by simp only [hgain]; omega, fun ls h => .sign h⟩
      · -- the operator takes the place of an operand, which no later lexeme makes up for
        have hgain : (Token.operator (role true op)).gain = -1 := by simp [role, hsub, Token.gain]
        exact .inl (by simp only [hgain]; omega)
  · obtain rfl : signPlace = true := hstart rfl
    exact .inr ⟨Int.zero_add _, fun ls h => .opening h⟩
  · have hreleased := prospect_eq_of_release (fun _ => true) held
    have hopenings := openings_release (fun _ => true) held
    simp only [hrelease, heldTokens] at hreleased
    rw [hrelease] at hopenings
    cases signPlace with
    | false =>
      refine .inr ⟨hreleased, fun ls h => ?_⟩
      show Placed false (openings held) (.closing :: ls)
      rw [← hopenings]
      exact .closing h
    | true =>
      simp only [prospect]
      exact .inl (by omega)

/-- What still comes out gains less than the prospect, or just as much, and then the lexemes that
are left are placed well. -/
theorem gain_lt_or_placed {c last : Conversion} {ls : List Lexeme} {out rest : List Token}
    (hrun : transduce step c ls = .ok (out, last)) (hfinish : finish last.held = .ok rest)
    (hnumeral : ∀ run v, .number run ∈ ls → Numeral.value run = .ok v → IsNumeral run)
    (hsep : Separated ls)
    (hhead : ∀ l ∈ ls.head?, l.startsOperand = true → c.signPlace = true) :
    gain (out ++ rest) < c.prospect ∨
      gain (out ++ rest) = c.prospect ∧ Placed c.signPlace (openings c.held) ls := by
  induction ls generalizing c out with
  | nil =>
    obtain ⟨held, signPlace⟩ := c
    cases hrun
    obtain ⟨rfl, hopenings⟩ := eq_of_finish hfinish
    rw [List.nil_append]
    cases signPlace with
    | true => exact .inl (Int.lt_succ _)
    | false =>
      rw [hopenings]
      exact .inr ⟨rfl, .stop⟩
  | cons l ls ih =>
    obtain ⟨written, next, out', hstep, hrun', rfl⟩ := transduce_cons_eq_ok.mp hrun
    obtain ⟨hnext, hsep'⟩ := List.isChain_cons.mp hsep
    have hhead' : ∀ l' ∈ ls.head?, l'.startsOperand = true → next.signPlace = true := by
      intro l' hl' hstart
      rw [signPlace_of_step hstep]
      simpa [hstart] using hnext l' hl'
    have hrest := ih hrun' (fun run v hmem => hnumeral run v (List.mem_cons_of_mem l hmem)) hsep'
      hhead'
    have hfirst := prospect_step hstep (hhead l rfl)
      fun run v hl => hnumeral run v (hl ▸ List.mem_cons_self ..)
    rw [List.append_assoc, gain_append]
    rcases hrest with hlt | ⟨heq, hplaced⟩
    · exact .inl (by omega)
    · rcases hfirst with hlt | ⟨heq', hplaced'⟩
      · exact .inl (by omega)
      · exact .inr ⟨by omega, hplaced' ls hplaced⟩

/-- Text that is converted to tokens with one value, and keeps operands apart, is an expression. -/
theorem exists_derives_of_gain {cs : List Char} {tokens : List Token} (h : toRpn cs = .ok tokens)
    (hgain : gain tokens = 1) (hsep : Separated (lexemes cs)) : ∃ e, Derives .sum cs e := by
  obtain ⟨out, last, rest, hrun, hfinish, rfl⟩ := exists_of_toRpn h
  have hnumeral (run : List Char) (v : Float) (hmem : .number run ∈ lexemes cs)
      (hv : Numeral.value run = .ok v) : IsNumeral run :=
    isNumeral_of_value (isRun_of_mem_lexemes hmem).1 (isRun_of_mem_lexemes hmem).2 hv
  rcases gain_lt_or_placed hrun hfinish hnumeral hsep (fun _ _ _ => rfl) with hlt | ⟨-, hplaced⟩
  · rw [hgain] at hlt
    exact absurd hlt (by decide)
  · exact (derives_iff_placed cs).mpr hplaced

/-- A text without its blanks is an expression of the grammar if and only if it is evaluated and no
operand in it, a number or a group, stands right behind another. -/
theorem derives_iff_evaluated_and_separated (s : String) :
    (∃ e, Derives .sum (withoutBlanks s.toList) e) ↔
      (∃ steps value, Reply.toExpression s = .evaluated s steps value) ∧
        Separated (lexemes (withoutBlanks s.toList)) := by
  constructor
  · rintro ⟨e, h⟩
    have hvalue := h.calculate_eq (spaced_withoutBlanks s.toList)
    refine ⟨⟨e.steps.map Step.text, e.value, ?_⟩, ((derives_iff_placed _).mp ⟨e, h⟩).separated.1⟩
    rw [Reply.toExpression, hvalue]
    rfl
  · rintro ⟨⟨steps, value, h⟩, hsep⟩
    rw [Reply.toExpression] at h
    cases hcalc : calculate s with
    | error fault =>
      rw [hcalc] at h
      cases h
    | ok c =>
      obtain ⟨hconvert, hvalue⟩ := calculate_eq_ok hcalc
      obtain ⟨cs, hnormal, htokens⟩ := bind_eq_ok.mp hconvert
      obtain rfl := withoutBlanks_eq_of_normalise hnormal
      exact exists_derives_of_gain htokens (gain_of_evaluate hvalue) hsep

/-- A number right behind a group, and a sum without a right operand: it is evaluated as the sum
of the two, and is no expression. -/
theorem evaluated_juxtaposed :
    Reply.toExpression "1(2)+" = .evaluated "1(2)+" ["1 + 2 = 3"] 3 ∧
      ¬ ∃ e, Derives .sum (withoutBlanks "1(2)+".toList) e := by
  refine ⟨by decide +kernel, fun h => ?_⟩
  have hsep := ((derives_iff_placed _).mp h).separated.1
  exact absurd hsep (by decide +kernel)

end Reckoner
