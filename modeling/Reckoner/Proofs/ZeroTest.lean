import Reckoner.Number.NotANumber
import Reckoner.Proofs.Accumulation

/-!
# What the zero test lets through

What is no number is not less than any bound, so the test of the coefficient would let it through.
It never gets one: what a term adds is finite, so a sum may become infinite but stays a number
(`LinearForm.IsNumeric.addTerm`), through any sequence of terms. An equation is tested once it has
its two sides (`hasSides_iff`), and a solution that is no number is a quotient of infinities.
-/

namespace Reckoner

open LinearForm Binary64

/-- Both sums are numbers, or infinite. -/
structure LinearForm.IsNumeric (form : LinearForm) : Prop where
  a : form.a.isNaN = false
  b : form.b.isNaN = false

/-- The left side of the first equals sign adds up to a form, and on the right is a literal. -/
def HasSides (text : String) (form : LinearForm) (rhs : Float) : Prop :=
  ∃ left right, IsCut text left right ∧ ofText left = .ok form ∧ readLiteral right = some rhs

/-! ### The two sums -/

section Sums

variable {cs term : List Char} {terms : List (List Char)} {v : Float} {kind : TermKind}
  {form next : LinearForm}

theorem isFinite_of_coefficient? (h : LinearForm.coefficient? cs = some v) : IsFinite v := by
  unfold LinearForm.coefficient? at h
  split at h
  · exact Option.some.inj h ▸ isFinite_one
  · exact Option.some.inj h ▸ isFinite_one
  · exact Option.some.inj h ▸ isFinite_one.neg
  · exact isFinite_of_readLiteral h

theorem isFinite_of_termValue? (h : termValue? term = some v) : IsFinite v := by
  unfold termValue? at h
  split at h
  · exact isFinite_of_coefficient? h
  · exact isFinite_of_readLiteral h

namespace LinearForm.IsNumeric

theorem zero : LinearForm.zero.IsNumeric := ⟨rfl, rfl⟩

theorem add (h : form.IsNumeric) (kind : TermKind) (hv : IsFinite v) :
    (form.add kind v).IsNumeric := by
  cases kind with
  | unknown => exact ⟨isNaN_add h.a hv, h.b⟩
  | constant => exact ⟨h.a, isNaN_add h.b hv⟩

theorem addTerm (h : form.IsNumeric) (hadd : form.addTerm term = .ok next) : next.IsNumeric := by
  obtain ⟨v, hv, hnext⟩ | ⟨-, hfault⟩ := addTerm_cases form term
  · rw [hnext] at hadd
    cases hadd
    exact h.add _ (isFinite_of_termValue? hv)
  · rw [hfault] at hadd
    cases hadd

/-- A sum stays a number after every term, whether the terms before were at fault or not. -/
theorem addTerms (h : form.IsNumeric) :
    ∀ state ∈ form.addTerms terms, state.1.IsNumeric := by
  induction terms generalizing form with
  | nil => nofun
  | cons term terms ih =>
    unfold LinearForm.addTerms
    split
    · rename_i next hadd
      have hnext := h.addTerm hadd
      exact List.forall_mem_cons.mpr ⟨hnext, ih hnext⟩
    · exact List.forall_mem_cons.mpr ⟨h, ih h⟩

theorem foldlM (h : form.IsNumeric) (hfold : terms.foldlM LinearForm.addTerm form = .ok next) :
    next.IsNumeric := by
  induction terms generalizing form with
  | nil =>
    cases hfold
    exact h
  | cons term terms ih =>
    rw [List.foldlM_cons] at hfold
    obtain ⟨after, hadd, hrest⟩ := bind_eq_ok.mp hfold
    exact ih (h.addTerm hadd) hrest

end LinearForm.IsNumeric

/-- Either sum may overflow. -/
theorem exists_addTerms_isInf :
    ∃ terms, ∃ state ∈ zero.addTerms terms, state.1.a.isInf = true ∧ state.1.b.isInf = true :=
  ⟨["1e308x".toList, "1e308x".toList, "1e308".toList, "1e308".toList], by decide +kernel⟩

end Sums

/-! ### Whole equations -/

section Equations

variable {text : String} {parts : List (TermKind × Float)} {form : LinearForm} {rhs x : Float}

theorem IsEquation.hasSides (h : IsEquation text parts rhs) :
    ∃ form, HasSides text form rhs := by
  obtain ⟨left, right, htext, hleft, hparts, hright⟩ := h
  exact ⟨_, left, right, ⟨htext, hleft⟩, ofText_of_denotes hparts, hright⟩

namespace HasSides

theorem isNumeric (h : HasSides text form rhs) : form.IsNumeric := by
  obtain ⟨left, right, -, hform, -⟩ := h
  exact IsNumeric.zero.foldlM hform

theorem isFinite (h : HasSides text form rhs) : IsFinite rhs := by
  obtain ⟨left, right, -, -, hright⟩ := h
  exact isFinite_of_readLiteral hright

theorem solveEquation_eq (h : HasSides text form rhs) :
    solveEquation text = if form.a.abs < leastCoefficient then .error .noUniqueSolution
      else .ok ((rhs - form.b) / form.a) := by
  obtain ⟨left, right, hcut, hform, hright⟩ := h
  rw [solveEquation_eq_of_cut hcut.1 hcut.2 hright, hform]
  rfl

/-- A coefficient that is let through is not too small, and the solution is no number only where the
coefficient and the difference are infinite. -/
theorem of_solved (h : HasSides text form rhs) (hx : solveEquation text = .ok x) :
    leastCoefficient ≤ form.a.abs ∧
      (x.isNaN = true → form.a.isInf = true ∧ (rhs - form.b).isInf = true) := by
  have hnumeric := h.isNumeric
  have hdifference := isNaN_sub h.isFinite hnumeric.b
  rw [h.solveEquation_eq] at hx
  split at hx
  · cases hx
  · rename_i hlarge
    cases hx
    refine ⟨le_of_not_lt_of_isNaN (isNaN_abs hnumeric.a) rfl hlarge, fun hnan => ?_⟩
    obtain ⟨hd, ha⟩ | ⟨-, hzero⟩ := isInf_or_abs_eq_zero_of_isNaN_div hdifference hnumeric.a hnan
    · exact ⟨ha, hd⟩
    · exact absurd (show form.a.abs < leastCoefficient by rw [hzero]; decide) hlarge

end HasSides

/-- The coefficient is tested exactly where both sides are read. -/
theorem hasSides_iff :
    (∃ form rhs, HasSides text form rhs) ↔
      solveEquation text = .error .noUniqueSolution ∨ ∃ x, solveEquation text = .ok x := by
  constructor
  · rintro ⟨form, rhs, h⟩
    rw [h.solveEquation_eq]
    split
    · exact .inl rfl
    · exact .inr ⟨_, rfl⟩
  · rintro (h | ⟨x, h⟩)
    · cases solveEquation_eq_iff.mp h with
      | noUniqueSolution equation small =>
        obtain ⟨form, hsides⟩ := equation.hasSides
        exact ⟨form, _, hsides⟩
    · cases solveEquation_eq_iff.mp h with
      | solved equation large =>
        obtain ⟨form, hsides⟩ := equation.hasSides
        exact ⟨form, _, hsides⟩

/-- From zero on no sequence of terms makes one of the two sums no number, although both may become
infinite. So at the test, which is reached exactly where both sides of an equation are read, the
coefficient and the constant are numbers and the right side is finite; a coefficient that is let
through is at least as great as the bound, and the solution is no number only where an infinite
difference is divided by an infinite coefficient. -/
theorem numbers_at_zeroTest :
    (∀ terms, ∀ state ∈ zero.addTerms terms, state.1.IsNumeric) ∧
    (∃ terms, ∃ state ∈ zero.addTerms terms, state.1.a.isInf = true ∧ state.1.b.isInf = true) ∧
    (∀ text, (∃ form rhs, HasSides text form rhs) ↔
      solveEquation text = .error .noUniqueSolution ∨ ∃ x, solveEquation text = .ok x) ∧
    ∀ text form rhs, HasSides text form rhs →
      form.IsNumeric ∧ IsFinite rhs ∧
      (solveEquation text = if form.a.abs < 1e-12 then .error .noUniqueSolution
        else .ok ((rhs - form.b) / form.a)) ∧
      ∀ x, solveEquation text = .ok x → 1e-12 ≤ form.a.abs ∧
        (x.isNaN = true → form.a.isInf = true ∧ (rhs - form.b).isInf = true) := by
  refine ⟨fun _ => IsNumeric.zero.addTerms, exists_addTerms_isInf, fun _ => hasSides_iff, ?_⟩
  intro text form rhs h
  exact ⟨h.isNumeric, h.isFinite, h.solveEquation_eq, fun x => h.of_solved⟩

/-- Both sums overflow, so the solution is no number. -/
theorem numbers_at_zeroTest_overflow :
    HasSides "1e308x+1e308x+1e308+1e308=0" ⟨infinity, infinity⟩ 0 ∧
      solveEquation "1e308x+1e308x+1e308+1e308=0" = .ok notANumber ∧
      (1e-12 : Float) ≤ infinity.abs ∧
      infinity.isInf = true ∧ ((0 : Float) - infinity).isInf = true := by
  have hform : ofText "1e308x+1e308x+1e308+1e308".toList = .ok ⟨infinity, infinity⟩ := by
    decide +kernel
  have hright : readLiteral ['0'] = some 0 := by decide +kernel
  have hsides : HasSides "1e308x+1e308x+1e308+1e308=0" ⟨infinity, infinity⟩ 0 :=
    ⟨_, ['0'], ⟨by decide +kernel, by decide⟩, hform, hright⟩
  obtain ⟨-, -, -, hequations⟩ := numbers_at_zeroTest
  obtain ⟨-, -, hsolve, hsolved⟩ := hequations _ _ _ hsides
  have hx : solveEquation "1e308x+1e308x+1e308+1e308=0" = .ok notANumber :=
    hsolve.trans (by decide)
  obtain ⟨hlarge, hinf⟩ := hsolved _ hx
  exact ⟨hsides, hx, hlarge, hinf rfl⟩

end Equations

end Reckoner
