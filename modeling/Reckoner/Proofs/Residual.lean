import Mathlib.Tactic.Ring
import Reckoner.Equation.Exact
import Reckoner.Proofs.Coefficients

/-!
# Solutions solve their equations

The two sums of a left side say what it is for every number in the place of the unknown
(`sumAt_eq`). Where the sums, the difference and the quotient are exact, the solution is a root of
the equation and there is no other (`sumAt_eq_iff`); an equation is refused only where its
coefficient is too small (`abs_exactTotal_lt_iff`).
-/

namespace Reckoner

open Summand LinearForm

/-! ### Values are finite -/

section Finite

variable {cs f : List Char} {v : Float} {kind : TermKind} {parts : List (TermKind × Float)}

theorem isFinite_signed (negative : Bool) (h : IsFinite v) : IsFinite (signed negative v) := by
  cases negative with
  | false => exact h
  | true => exact h.neg

theorem isFinite_floatOfIndex {n : Nat} (h : n < Binary64.infinityIndex) :
    IsFinite (Binary64.floatOfIndex n) := by
  have hlt : n < Binary64.signWeight := Nat.lt_trans h (by decide)
  rwa [isFinite_iff, Binary64.toNat_toBits_floatOfIndex, Nat.min_eq_left (Nat.le_of_lt h),
    Nat.mod_eq_of_lt hlt]

theorem isFinite_of_readLiteral (h : readLiteral cs = some v) : IsFinite v := by
  obtain ⟨l, -, hl, rfl⟩ := readLiteral_eq_some_iff.mp h
  exact isFinite_signed l.negative (isFinite_floatOfIndex hl)

theorem isFinite_one : IsFinite 1 := by decide

theorem Denotes.isFinite (h : Denotes f kind v) : IsFinite v := by
  cases h with
  | constant negative literal reads =>
    exact isFinite_signed negative (isFinite_of_readLiteral reads)
  | letters negative hxs hne => exact isFinite_signed negative isFinite_one
  | coefficient negative letter literal reads =>
    exact isFinite_signed negative (isFinite_of_readLiteral reads)

theorem HasParts.isFinite (h : HasParts cs parts) : ∀ part ∈ parts, IsFinite part.2 := by
  unfold HasParts at h
  generalize fragments cs = fs at h
  induction h with
  | nil => simp
  | cons hdenotes _ ih => exact List.forall_mem_cons.mpr ⟨hdenotes.isFinite, ih⟩

end Finite

/-! ### Left sides -/

section LeftSides

variable {cs : List Char} {parts : List (TermKind × Float)}

theorem exactTotal_cons (kind : TermKind) (part : TermKind × Float)
    (parts : List (TermKind × Float)) :
    exactTotal kind (part :: parts) =
      (if part.1 = kind then rational part.2 else 0) + exactTotal kind parts := by
  by_cases h : part.1 = kind <;> simp [exactTotal, valuesOf, h]

theorem sumAt_eq (y : ℚ) (parts : List (TermKind × Float)) :
    sumAt y parts = exactTotal .unknown parts * y + exactTotal .constant parts := by
  induction parts with
  | nil => simp [sumAt, exactTotal, valuesOf]
  | cons part parts ih =>
    obtain ⟨kind, v⟩ := part
    have hsum : sumAt y (⟨kind, v⟩ :: parts) = partAt y ⟨kind, v⟩ + sumAt y parts := rfl
    rw [hsum, ih, exactTotal_cons, exactTotal_cons]
    cases kind with
    | unknown =>
      rw [if_pos rfl, if_neg nofun, partAt]
      ring
    | constant =>
      rw [if_neg nofun, if_pos rfl, partAt]
      ring

theorem represents_total (kind : TermKind) (h : SumsExactly 0 (valuesOf kind parts)) :
    Represents (total (valuesOf kind parts)) (exactTotal kind parts) := by
  have hfoldl := represents_foldl isFinite_zero h
  rwa [rational_zero, zero_add] at hfoldl

end LeftSides

/-! ### Whole equations -/

section Equations

variable {text equation : String} {parts : List (TermKind × Float)} {rhs x : Float}

theorem toNat_toBits_leastCoefficient :
    0 < leastCoefficient.toBits.toNat ∧
      leastCoefficient.toBits.toNat < Binary64.infinityIndex := by
  decide

theorem IsEquation.solveEquation_eq (h : IsEquation text parts rhs) :
    solveEquation text =
      if (total (valuesOf .unknown parts)).abs < leastCoefficient then .error .noUniqueSolution
      else .ok ((rhs - total (valuesOf .constant parts)) / total (valuesOf .unknown parts)) := by
  obtain ⟨left, right, htext, hleft, hparts, hright⟩ := h
  rw [solveEquation_eq_of_cut htext hleft hright, ofText_of_denotes hparts]
  rfl

theorem IsEquation.isFinite (h : IsEquation text parts rhs) :
    (∀ part ∈ parts, IsFinite part.2) ∧ IsFinite rhs := by
  obtain ⟨left, right, -, -, hparts, hright⟩ := h
  exact ⟨hparts.isFinite, isFinite_of_readLiteral hright⟩

theorem exists_isEquation_of_toEquation (h : Reply.toEquation text = .solved equation x) :
    ∃ parts rhs, IsEquation text parts rhs := by
  obtain ⟨left, right, rhs, form, htext, hleft, hright, hform, -⟩ :=
    exists_of_solveEquation_ok (solveEquation_of_toEquation h)
  obtain ⟨parts, hparts, -⟩ := exists_parts_of_ofText hform
  exact ⟨parts, rhs, left, right, htext, hleft, hparts, hright⟩

theorem IsEquation.eq_of_toEquation (h : IsEquation text parts rhs)
    (hsolved : Reply.toEquation text = .solved equation x) :
    ¬ (total (valuesOf .unknown parts)).abs < leastCoefficient ∧
      x = (rhs - total (valuesOf .constant parts)) / total (valuesOf .unknown parts) := by
  have hsolve := solveEquation_of_toEquation hsolved
  rw [h.solveEquation_eq] at hsolve
  split at hsolve
  · cases hsolve
  · exact ⟨‹_›, (Except.ok.inj hsolve).symm⟩

theorem IsEquation.refused (h : IsEquation text parts rhs) {message : String}
    (hrefused : Reply.toEquation text = .refused message) :
    message = Fault.noUniqueSolution.message ∧
      (total (valuesOf .unknown parts)).abs < leastCoefficient := by
  rw [Reply.toEquation, h.solveEquation_eq] at hrefused
  split at hrefused
  · cases hrefused
    exact ⟨rfl, ‹_›⟩
  · cases hrefused

theorem abs_exactTotal_lt_iff (h : SumsExactly 0 (valuesOf .unknown parts)) :
    (total (valuesOf .unknown parts)).abs < leastCoefficient ↔
      |exactTotal .unknown parts| < rational leastCoefficient := by
  have ha := represents_total .unknown h
  rw [abs_lt_iff ha.isFinite toNat_toBits_leastCoefficient.2, ha.rational_eq]

theorem ExactlySolved.sumAt_eq_iff (h : ExactlySolved parts rhs)
    (hcoefficient : ¬ (total (valuesOf .unknown parts)).abs < leastCoefficient) (y : ℚ) :
    sumAt y parts = rational rhs ↔
      y = rational ((rhs - total (valuesOf .constant parts)) /
        total (valuesOf .unknown parts)) := by
  have ha := represents_total .unknown h.coefficient
  have hb := represents_total .constant h.constant
  have hpos := rational_pos toNat_toBits_leastCoefficient.2 toNat_toBits_leastCoefficient.1
  -- with a coefficient of zero the equation would have been refused
  have hne : exactTotal .unknown parts ≠ 0 := by
    intro hzero
    refine hcoefficient ((abs_exactTotal_lt_iff h.coefficient).mpr ?_)
    rwa [hzero, abs_zero]
  rw [h.quotient.rational_eq, h.difference.rational_eq, ha.rational_eq, hb.rational_eq, sumAt_eq,
    eq_div_iff hne, mul_comm y]
  exact eq_sub_iff_add_eq.symm

/-- A text that is solved is an equation, and the solution of an equation that is solved exactly is
its only root in rational arithmetic. An equation that is refused has no other fault than a
coefficient nearer to zero than `1e-12`. The two sums of a left side are its coefficient and its
constant, in rational arithmetic and, where they are exact, as doubles. -/
theorem root_of_solved :
    (∀ text equation x, Reply.toEquation text = .solved equation x →
      ∃ parts rhs, IsEquation text parts rhs) ∧
    (∀ text parts rhs, IsEquation text parts rhs →
      ((∀ part ∈ parts, IsFinite part.2) ∧ IsFinite rhs) ∧
      (∀ equation x, Reply.toEquation text = .solved equation x → ExactlySolved parts rhs →
        IsFinite x ∧ ∀ y, sumAt y parts = rational rhs ↔ y = rational x) ∧
      ∀ message, Reply.toEquation text = .refused message →
        message = Fault.noUniqueSolution.message ∧
          (SumsExactly 0 (valuesOf .unknown parts) →
            |exactTotal .unknown parts| < rational 1e-12)) ∧
    ∀ left form, ofText left = .ok form →
      (∃ parts, HasParts left parts) ∧
      ∀ parts, HasParts left parts →
        (∀ y, sumAt y parts = exactTotal .unknown parts * y + exactTotal .constant parts) ∧
        (SumsExactly 0 (valuesOf .unknown parts) →
          Represents form.a (exactTotal .unknown parts)) ∧
        (SumsExactly 0 (valuesOf .constant parts) →
          Represents form.b (exactTotal .constant parts)) := by
  refine ⟨fun text equation x => exists_isEquation_of_toEquation, ?_, ?_⟩
  · intro text parts rhs h
    refine ⟨h.isFinite, fun equation x hsolved hexact => ?_, fun message hrefused => ?_⟩
    · obtain ⟨hcoefficient, rfl⟩ := h.eq_of_toEquation hsolved
      exact ⟨hexact.quotient.isFinite, hexact.sumAt_eq_iff hcoefficient⟩
    · obtain ⟨hmessage, hsmall⟩ := h.refused hrefused
      exact ⟨hmessage, fun hexact => (abs_exactTotal_lt_iff hexact).mp hsmall⟩
  · intro left form h
    obtain ⟨parts₀, hparts₀, -⟩ := exists_parts_of_ofText h
    refine ⟨⟨parts₀, hparts₀⟩, fun parts hparts => ⟨fun y => sumAt_eq y parts, ?_, ?_⟩⟩
    all_goals
      rw [ofText_of_denotes hparts] at h
      obtain rfl := Except.ok.inj h
      exact represents_total _

theorem isMagnitude_of_isDigit {c : Char} (h : c.isDigit = true) : IsMagnitude [c] :=
  .mk (isNumeral_of_isDigit h) .absent

/-- The parts of `2x-4`. -/
def twoXMinusFour : List (TermKind × Float) :=
  [⟨.unknown, 2⟩, ⟨.constant, -4⟩]

/-- The parts of `x-X`. -/
def nothingLeft : List (TermKind × Float) :=
  [⟨.unknown, 1⟩, ⟨.unknown, -1⟩]

theorem hasParts_twoXMinusFour : HasParts "2x-4".toList twoXMinusFour := by
  have hfragments : fragments "2x-4".toList = [['2', 'x'], ['-', '4']] := by decide
  rw [HasParts, hfragments]
  refine .cons ?_ (.cons ?_ .nil)
  · have hletters : withoutLetters ['2', 'x'] = ['2'] := by decide
    refine .coefficient false ⟨'x', by simp, rfl⟩ ?_ ?_
    · rw [hletters]
      exact isMagnitude_of_isDigit rfl
    · decide +kernel
  · exact .constant true (isMagnitude_of_isDigit rfl) (by decide +kernel)

theorem hasParts_nothingLeft : HasParts "x-X".toList nothingLeft := by
  have hfragments : fragments "x-X".toList = [['x'], ['-', 'X']] := by decide
  rw [HasParts, hfragments]
  have hletter (c : Char) (h : isUnknown c = true) : ∀ x ∈ [c], isUnknown x := by
    intro x hx
    rwa [List.mem_singleton.mp hx]
  exact .cons (.letters false (hletter 'x' rfl) (by simp))
    (.cons (.letters true (hletter 'X' rfl) (by simp)) .nil)

theorem exactlySolved_twoXMinusFour : ExactlySolved twoXMinusFour 6 where
  coefficient := ⟨⟨by decide, by decide +kernel⟩, trivial⟩
  constant := ⟨⟨by decide, by decide +kernel⟩, trivial⟩
  difference := ⟨by decide, by decide +kernel⟩
  quotient := ⟨by decide, by decide +kernel⟩

theorem root_of_solved_five :
    (Reply.toEquation "2x-4 = 6" = .solved "2x-4 = 6" 5 ∧
      ∀ y, sumAt y twoXMinusFour = rational 6 ↔ y = rational 5) ∧
    (Reply.toEquation "x-X = 6" = .refused Fault.noUniqueSolution.message ∧
      |exactTotal .unknown nothingLeft| < rational 1e-12) ∧
    ofText "2x-4".toList = .ok ⟨2, -4⟩ ∧
      Represents 2 (exactTotal .unknown twoXMinusFour) ∧
      Represents (-4) (exactTotal .constant twoXMinusFour) := by
  have hsolved : Reply.toEquation "2x-4 = 6" = .solved "2x-4 = 6" 5 := by decide +kernel
  have hrefused : Reply.toEquation "x-X = 6" = .refused Fault.noUniqueSolution.message := by
    decide +kernel
  have hform : ofText "2x-4".toList = .ok ⟨2, -4⟩ := by decide +kernel
  have hsix : readLiteral ['6'] = some 6 := by decide +kernel
  obtain ⟨-, hequation, hleft⟩ := root_of_solved
  have hexact := exactlySolved_twoXMinusFour
  have hfive := (hequation "2x-4 = 6" twoXMinusFour 6
    ⟨_, ['6'], by decide +kernel, by decide, hasParts_twoXMinusFour, hsix⟩).2.1 _ 5 hsolved hexact
  have hnone := (hequation "x-X = 6" nothingLeft 6
    ⟨_, ['6'], by decide +kernel, by decide, hasParts_nothingLeft, hsix⟩).2.2 _ hrefused
  have hsum : SumsExactly 0 (valuesOf .unknown nothingLeft) :=
    ⟨⟨by decide +kernel, by decide +kernel⟩, ⟨by decide +kernel, by decide +kernel⟩, trivial⟩
  obtain ⟨-, ha, hb⟩ := (hleft _ _ hform).2 _ hasParts_twoXMinusFour
  exact ⟨⟨hsolved, hfive.2⟩, ⟨hrefused, hnone.2 hsum⟩, hform, ha hexact.coefficient,
    hb hexact.constant⟩

end Equations

end Reckoner
