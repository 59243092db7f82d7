import Reckoner.Agreement
import Reckoner.Proofs.Lexemes
import Reckoner.Reply
import Reckoner.Rpn.Inventory

/-!
# The numbers do not decide what is accepted

Two lists of tokens have the same shape if they have the same operators at the same places and
numbers at the others. Their evaluations agree: no division by zero, no power outside its domain and
no infinity makes a fault or prevents one (`agree_evaluate`). In the same way the lexemes of two
texts are alike if only the numerals differ, and then the tokens have the same shape, and the
replies agree (`toExpression_alike`).
-/

namespace Reckoner

def SameShape : List Token → List Token → Prop :=
  List.Forall₂ fun t u => t.operator? = u.operator?

/-- The same lexeme, or two numerals. -/
inductive Lexeme.Alike : Lexeme → Lexeme → Prop where
  | same (l : Lexeme) : Alike l l
  | numerals {run run' : List Char} (h : IsNumeral run) (h' : IsNumeral run') :
      Alike (.number run) (.number run')

/-- Texts that differ, their blanks apart, only in which numerals stand at the places of numbers. -/
def AlikeTexts (s t : String) : Prop :=
  List.Forall₂ Lexeme.Alike (lexemes (withoutBlanks s.toList)) (lexemes (withoutBlanks t.toList))

/-! ### Evaluation -/

section Evaluation

def SameHeight (stack stack' : List Float) : Prop :=
  stack.length = stack'.length

/-- A step is made, or lacks operands, whatever the values on the stack are. -/
theorem agree_ofToken {stack stack' : List Float} {t u : Token} (hstack : SameHeight stack stack')
    (htoken : t.operator? = u.operator?) :
    Agree (Matched (fun _ _ => True) SameHeight) (Step.ofToken stack t) (Step.ofToken stack' u) := by
  cases t with
  | number v =>
    cases u with
    | number w => exact .ok ⟨.nil, congrArg Nat.succ hstack⟩
    | operator op => cases htoken
  | operator op =>
    cases u with
    | number w => cases htoken
    | operator op' =>
      cases htoken
      cases op with
      | neg =>
        match stack, stack', hstack with
        | [], [], _ => exact .error _
        | a :: stack, a' :: stack', h => exact .ok ⟨.cons trivial .nil, h⟩
      | binary op =>
        match stack, stack', hstack with
        | [], [], _ => exact .error _
        | [_], [_], _ => exact .error _
        | b :: a :: stack, b' :: a' :: stack', h =>
          exact .ok ⟨.cons trivial .nil, Nat.succ.inj h⟩

theorem agree_evaluate {ts us : List Token} (h : SameShape ts us) :
    Agree (fun r r' => r.2.length = r'.2.length) (evaluate ts) (evaluate us) := by
  have hempty : SameHeight [] [] := rfl
  refine Agree.bind (agree_transduce h hempty fun _ _ _ _ => agree_ofToken) ?_
  rintro ⟨steps, stack⟩ ⟨steps', stack'⟩ ⟨hsteps, hstack⟩
  match stack, stack', hstack with
  | [], [], _ => exact .error _
  | [v], [v'], _ => exact .ok hsteps.length_eq
  | a :: b :: stack, a' :: b' :: stack', h =>
    have hlength : (a :: b :: stack).length = (a' :: b' :: stack').length := h
    show Agree _ (.error (Fault.leftoverValues _)) (.error (Fault.leftoverValues _))
    rw [hlength]
    exact .error _

end Evaluation

/-! ### Conversion -/

section Conversion

open Conversion

theorem agree_step {c c' : Conversion} {l l' : Lexeme} (hc : c = c') (hl : l.Alike l') :
    Agree (Matched (fun t u : Token => t.operator? = u.operator?) Eq) (step c l)
      (step c' l') := by
  subst hc
  cases hl with
  | same => exact .refl (fun x => ⟨List.forall₂_same.mpr fun _ _ => rfl, rfl⟩) _
  | numerals h h' =>
    obtain ⟨v, hv⟩ := h.exists_value
    obtain ⟨v', hv'⟩ := h'.exists_value
    rw [step, step, hv, hv']
    exact .ok ⟨.cons rfl .nil, rfl⟩

theorem agree_toRpn {cs ds : List Char}
    (h : List.Forall₂ Lexeme.Alike (lexemes cs) (lexemes ds)) :
    Agree SameShape (toRpn cs) (toRpn ds) := by
  refine Agree.bind (agree_transduce h rfl fun _ _ _ _ => agree_step) ?_
  rintro ⟨out, last⟩ ⟨out', last'⟩ ⟨hwritten, hlast⟩
  obtain rfl : last = last' := hlast
  refine Agree.bind (R := Eq) (.refl (fun _ => rfl) _) ?_
  rintro rest rest' rfl
  exact .ok (List.rel_append hwritten (List.forall₂_same.mpr fun _ _ => rfl))

end Conversion

/-! ### Texts -/

section Texts

theorem lexemes_eq_nil_iff {cs : List Char} : lexemes cs = [] ↔ cs = [] := by
  constructor
  · intro h
    rw [← flatMap_chars_lexemes cs, h]
    rfl
  · rintro rfl
    rw [lexemes]

theorem agree_normalise {cs ds : List Char}
    (h : List.Forall₂ Lexeme.Alike (lexemes (withoutBlanks cs)) (lexemes (withoutBlanks ds))) :
    Agree (fun cs' ds' => List.Forall₂ Lexeme.Alike (lexemes cs') (lexemes ds')) (normalise cs)
      (normalise ds) := by
  unfold normalise
  split
  · rename_i hcs
    rw [hcs, lexemes_eq_nil_iff.mpr rfl, List.forall₂_nil_left_iff, lexemes_eq_nil_iff] at h
    rw [h]
    exact .error _
  · rename_i c cs' hcs
    split
    · rename_i hds
      rw [hds, lexemes_eq_nil_iff.mpr rfl, List.forall₂_nil_right_iff, lexemes_eq_nil_iff] at h
      rw [hcs] at h
      cases h
    · rename_i d ds' hds
      rw [hcs, hds] at h
      exact .ok h

theorem agree_calculate {s t : String} (h : AlikeTexts s t) :
    Agree (fun c d => c.steps.length = d.steps.length) (calculate s) (calculate t) := by
  refine (agree_normalise h).bind fun cs ds hlexemes => ?_
  refine (agree_toRpn hlexemes).bind fun ts us htokens => ?_
  exact (agree_evaluate htokens).bind fun r r' hsteps => .ok hsteps

theorem toExpression_alike {s t : String} (h : AlikeTexts s t) :
    (∃ steps value steps' value', Reply.toExpression s = .evaluated s steps value ∧
        Reply.toExpression t = .evaluated t steps' value' ∧ steps.length = steps'.length) ∨
      ∃ message, Reply.toExpression s = .refused message ∧
        Reply.toExpression t = .refused message := by
  have hagree := agree_calculate h
  rw [Reply.toExpression, Reply.toExpression]
  generalize calculate s = x at hagree ⊢
  generalize calculate t = y at hagree ⊢
  cases hagree with
  | @ok c d hsteps =>
    exact .inl ⟨_, _, _, _, rfl, rfl, by simpa using hsteps⟩
  | error fault => exact .inr ⟨_, rfl, rfl⟩

end Texts

end Reckoner
