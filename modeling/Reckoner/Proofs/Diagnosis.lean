import Reckoner.Equation.Outcome
import Reckoner.Proofs.Residual

/-!
# What is reported of an equation

A term is added up if and only if it is a term in the sense of the grammar, and else it is reported
as it stands (`addTerm_outcome`); so the sum of the fragments meets the leftmost one that is at
fault (`ofText_of_first`). `solveEquation_outcome` puts the parts together: which of the outcomes an
equation has, and what the reported terms look like.
-/

namespace Reckoner

open LinearForm Summand

/-! ### Literals -/

theorem exists_readLiteral_iff {cs : List Char} :
    (∃ v, readLiteral cs = some v) ↔ IsFiniteLiteral cs := by
  constructor
  · rintro ⟨v, hv⟩
    obtain ⟨l, hl, hfinite, -⟩ := readLiteral_eq_some_iff.mp hv
    refine ⟨isLiteral_of_readLiteral hv, fun l' hl' => ?_⟩
    obtain rfl : l = l' := Option.some.inj (hl.symm.trans hl')
    exact hfinite
  · rintro ⟨hliteral, hfinite⟩
    obtain ⟨l, hl⟩ := isLiteral_iff.mp hliteral
    exact ⟨l.toFloat, readLiteral_eq_some_iff.mpr ⟨l, hl, hfinite l hl, rfl⟩⟩

theorem readLiteral_eq_none {cs : List Char} (h : ¬ IsFiniteLiteral cs) : readLiteral cs = none := by
  rw [← exists_readLiteral_iff] at h
  cases hread : readLiteral cs with
  | none => rfl
  | some v => exact absurd ⟨v, hread⟩ h

theorem not_isFiniteLiteral_of_equals {cs : List Char} (h : '=' ∈ cs) : ¬ IsFiniteLiteral cs := by
  intro hliteral
  obtain ⟨v, hv⟩ := exists_readLiteral_iff.mpr hliteral
  exact absurd (mem_of_readLiteral hv h) (by decide)

/-! ### Terms -/

section Terms

variable {f : List Char} {form : LinearForm}

theorem exists_coefficient?_iff {cs : List Char} (hplus : '+' ∉ cs) :
    (∃ v, LinearForm.coefficient? cs = some v) ↔
      cs = [] ∨ cs = ['-'] ∨ IsFiniteLiteral cs := by
  unfold LinearForm.coefficient?
  split
  · simp
  · simp at hplus
  · simp
  · rw [exists_readLiteral_iff]
    simp_all

theorem addTerm_outcome (hplus : '+' ∉ f) (form : LinearForm) :
    (IsTerm f ∧ ∃ next, form.addTerm f = .ok next) ∨
      (¬ IsTerm f ∧ form.addTerm f = .error (.badTerm (String.ofList f) (kindOf f))) := by
  by_cases hany : f.any isUnknown
  · have hkind : kindOf f = .unknown := if_pos hany
    have hletters : f.filter (!isUnknown ·) = withoutLetters f := rfl
    have hplus' : '+' ∉ withoutLetters f := fun h => hplus (List.mem_filter.mp h).1
    have hterm : IsTerm f ↔ ∃ v, LinearForm.coefficient? (withoutLetters f) = some v := by
      rw [exists_coefficient?_iff hplus', IsTerm, hkind]
    rw [hterm, hkind, addTerm, if_pos hany, hletters]
    cases LinearForm.coefficient? (withoutLetters f) with
    | none => exact .inr ⟨by simp, rfl⟩
    | some v => exact .inl ⟨⟨v, rfl⟩, _, rfl⟩
  · have hkind : kindOf f = .constant := if_neg hany
    have hterm : IsTerm f ↔ ∃ v, readLiteral f = some v := by
      rw [exists_readLiteral_iff, IsTerm, hkind]
    rw [hterm, hkind, addTerm, if_neg hany]
    cases readLiteral f with
    | none => exact .inr ⟨by simp, rfl⟩
    | some v => exact .inl ⟨⟨v, rfl⟩, _, rfl⟩

theorem exists_foldlM_of_isTerm {fs : List (List Char)} (hplus : ∀ f ∈ fs, '+' ∉ f)
    (hfs : ∀ f ∈ fs, IsTerm f) (form : LinearForm) :
    ∃ next, fs.foldlM addTerm form = .ok next := by
  induction fs generalizing form with
  | nil => exact ⟨form, rfl⟩
  | cons f fs ih =>
    obtain ⟨hf, hrest⟩ := List.forall_mem_cons.mp hfs
    obtain ⟨hfplus, hrestplus⟩ := List.forall_mem_cons.mp hplus
    rcases addTerm_outcome hfplus form with ⟨-, next, hnext⟩ | ⟨hnot, -⟩
    · rw [List.foldlM_cons, hnext]
      exact ih hrestplus hrest next
    · exact absurd hf hnot

end Terms

/-! ### Left sides -/

section LeftSides

variable {left f : List Char}

/-- The pieces in a row are the text without its pluses. -/
theorem flatten_cut (cs : List Char) : (cut cs).flatten = cs.filter (· ≠ '+') := by
  induction cs with
  | nil => rfl
  | cons c cs ih =>
    obtain ⟨head, tail, hcut, -⟩ := exists_cut_eq_cons cs
    rw [hcut, List.flatten_cons] at ih
    by_cases hplus : c = '+'
    · simp [cut, hcut, hplus, ih]
    · by_cases hminus : c = '-' <;> simp [cut, hcut, hplus, hminus, ih]

theorem mem_of_mem_fragments (h : f ∈ fragments left) {c : Char} (hc : c ∈ f) :
    c ∈ left ∧ c ≠ '+' := by
  have hmem : c ∈ (cut left).flatten := List.mem_flatten_of_mem (List.mem_filter.mp h).1 hc
  rw [flatten_cut] at hmem
  simpa using hmem

theorem plus_not_mem_of_mem_fragments (h : f ∈ fragments left) : '+' ∉ f :=
  fun hc => (mem_of_mem_fragments h hc).2 rfl

theorem IsCut.isPiece {text : String} {right : List Char} (h : IsCut text left right)
    (hf : f ∈ fragments left) : IsPiece f where
  ne_nil := by simpa using (List.mem_filter.mp hf).2
  chars c hc := by
    obtain ⟨hmem, hplus⟩ := mem_of_mem_fragments hf hc
    have htext : c ∈ withoutBlanks text.toList := by simp [h.1, hmem]
    exact ⟨hplus, fun heq => h.2 (heq ▸ hmem), isBlank_eq_false_of_mem_withoutBlanks htext⟩
  minus := by
    obtain ⟨negative, body, rfl, hbody⟩ := exists_of_mem_fragments hf
    cases negative with
    | false => exact fun hc => (hbody '-' (List.mem_of_mem_tail hc)).2 rfl
    | true => exact fun hc => (hbody '-' hc).2 rfl

theorem ofText_of_isTerm (h : ∀ f ∈ fragments left, IsTerm f) : ∃ form, ofText left = .ok form := by
  rw [ofText, terms_eq_fragments]
  exact exists_foldlM_of_isTerm (fun _ => plus_not_mem_of_mem_fragments) h zero

/-- What is reported is the leftmost fragment that is at fault. -/
theorem ofText_of_first {before after : List (List Char)} (h : fragments left = before ++ f :: after)
    (hbefore : ∀ g ∈ before, IsTerm g) (hf : ¬ IsTerm f) :
    ofText left = .error (.badTerm (String.ofList f) (kindOf f)) := by
  have hplus : ∀ g ∈ before ++ f :: after, '+' ∉ g :=
    fun g hg => plus_not_mem_of_mem_fragments (h ▸ hg)
  obtain ⟨form, hform⟩ := exists_foldlM_of_isTerm
    (fun g hg => hplus g (List.mem_append_left _ hg)) hbefore zero
  rw [ofText, terms_eq_fragments, h, List.foldlM_append, hform]
  show ((form.addTerm f >>= fun next => after.foldlM addTerm next) : Except Fault LinearForm) = _
  rcases addTerm_outcome (hplus f (by simp)) form with ⟨hterm, -⟩ | ⟨-, herror⟩
  · exact absurd hterm hf
  · rw [herror]
    rfl

theorem all_or_first {α : Type} (p : α → Prop) (xs : List α) :
    (∀ x ∈ xs, p x) ∨ ∃ before x after, xs = before ++ x :: after ∧ (∀ y ∈ before, p y) ∧ ¬ p x := by
  induction xs with
  | nil => exact .inl (by simp)
  | cons x xs ih =>
    by_cases hx : p x
    · rcases ih with hxs | ⟨before, y, after, rfl, hbefore, hy⟩
      · exact .inl (List.forall_mem_cons.mpr ⟨hx, hxs⟩)
      · exact .inr ⟨x :: before, y, after, rfl, List.forall_mem_cons.mpr ⟨hx, hbefore⟩, hy⟩
    · exact .inr ⟨[], x, xs, rfl, by simp, hx⟩

theorem exists_hasParts_iff (left : List Char) :
    (∃ parts, HasParts left parts) ↔ ∀ f ∈ fragments left, IsTerm f := by
  constructor
  · rintro ⟨parts, hparts⟩
    rcases all_or_first IsTerm (fragments left) with hall | ⟨before, f, after, hsplit, hbefore, hf⟩
    · exact hall
    · have hok := ofText_of_denotes hparts
      rw [ofText_of_first hsplit hbefore hf] at hok
      cases hok
  · intro h
    obtain ⟨form, hform⟩ := ofText_of_isTerm h
    obtain ⟨parts, hparts, -⟩ := exists_parts_of_ofText hform
    exact ⟨parts, hparts⟩

end LeftSides

/-! ### Whole equations -/

section Equations

variable {text : String}

theorem EquationOutcome.eq {r : Except Fault Float} (h : EquationOutcome text r) :
    solveEquation text = r := by
  cases h with
  | missingEquals h => exact solveEquation_of_not_mem h
  | rightSideNotNumber cut hright =>
    rw [solveEquation_eq_match cut.1 cut.2, readLiteral_eq_none hright]
    rfl
  | badTerm cut hright split hbefore hf =>
    obtain ⟨rhs, hrhs⟩ := exists_readLiteral_iff.mpr hright
    rw [solveEquation_eq_of_cut cut.1 cut.2 hrhs, ofText_of_first split hbefore hf]
    rfl
  | noUniqueSolution equation small => rw [equation.solveEquation_eq, leastCoefficient, if_pos small]
  | solved equation large => rw [equation.solveEquation_eq, leastCoefficient, if_neg large]

theorem exists_equationOutcome (text : String) : ∃ r, EquationOutcome text r := by
  by_cases hequals : '=' ∈ withoutBlanks text.toList
  case neg => exact ⟨_, .missingEquals hequals⟩
  obtain ⟨left, right, htext, hleft⟩ := List.eq_append_cons_of_mem hequals
  have hcut : IsCut text left right := ⟨htext, hleft⟩
  by_cases hright : IsFiniteLiteral right
  case neg => exact ⟨_, .rightSideNotNumber hcut hright⟩
  rcases all_or_first IsTerm (fragments left) with hall | ⟨before, f, after, hsplit, hbefore, hf⟩
  case inr => exact ⟨_, .badTerm hcut hright hsplit hbefore hf⟩
  obtain ⟨parts, hparts⟩ := (exists_hasParts_iff left).mpr hall
  obtain ⟨rhs, hrhs⟩ := exists_readLiteral_iff.mpr hright
  have hequation : IsEquation text parts rhs := ⟨left, right, htext, hleft, hparts, hrhs⟩
  by_cases hsmall : (total (valuesOf .unknown parts)).abs < 1e-12
  · exact ⟨_, .noUniqueSolution hequation hsmall⟩
  · exact ⟨_, .solved hequation hsmall⟩

theorem solveEquation_eq_iff {r : Except Fault Float} :
    solveEquation text = r ↔ EquationOutcome text r := by
  constructor
  · rintro rfl
    obtain ⟨r, hr⟩ := exists_equationOutcome text
    rwa [hr.eq]
  · exact EquationOutcome.eq

theorem isPiece_of_badTerm {term : String} {kind : TermKind}
    (h : solveEquation text = .error (.badTerm term kind)) : IsPiece term.toList := by
  cases solveEquation_eq_iff.mp h with
  | @badTerm left right f before after cut hright split hbefore hf =>
    rw [String.toList_ofList]
    exact cut.isPiece (by simp [split])

/-- An equation has exactly the outcome that the first of its faults gives it, in the order equals
sign, right side, terms from left to right, coefficient; a left side has parts, which decide the
rest, if and only if all its fragments are terms. A second equals sign is a fault of the right side,
whatever the left side is, and a term that is reported is one piece of it, with no sign but a minus
at its head. -/
theorem solveEquation_outcome :
    (∀ text r, solveEquation text = r ↔ EquationOutcome text r) ∧
      (∀ left, (∃ parts, HasParts left parts) ↔ ∀ f ∈ fragments left, IsTerm f) ∧
      (∀ text left right, IsCut text left right → '=' ∈ right →
        solveEquation text = .error (.rightSideNotNumber (String.ofList right))) ∧
      ∀ text term kind, solveEquation text = .error (.badTerm term kind) → IsPiece term.toList :=
  ⟨fun _ _ => solveEquation_eq_iff, exists_hasParts_iff,
    fun _ _ _ hcut hequals =>
      (EquationOutcome.rightSideNotNumber hcut (not_isFiniteLiteral_of_equals hequals)).eq,
    fun _ _ _ => isPiece_of_badTerm⟩

theorem solveEquation_outcome_secondEquals :
    (IsCut "y=1=2" ['y'] ['1', '=', '2'] ∧
        solveEquation "y=1=2" = .error (.rightSideNotNumber "1=2")) ∧
      solveEquation "2x -y=3" = .error (.badTerm "-y" .constant) ∧ IsPiece "-y".toList := by
  have hcut : IsCut "y=1=2" ['y'] ['1', '=', '2'] := ⟨by decide +kernel, by decide⟩
  have hterm : solveEquation "2x -y=3" = .error (.badTerm "-y" .constant) := by decide +kernel
  exact ⟨⟨hcut, solveEquation_outcome.2.2.1 _ _ _ hcut (by decide)⟩, hterm,
    solveEquation_outcome.2.2.2 _ _ _ hterm⟩

end Equations

end Reckoner
