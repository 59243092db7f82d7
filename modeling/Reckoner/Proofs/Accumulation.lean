import Reckoner.Proofs.Diagnosis

/-!
# The two sums are kept apart

What terms add up to is said by two lists, the values of the terms with the letter of the unknown
and those of the others (`contributions`); a term at fault is in neither. `addTerms_getElem?` says so
of every state of a sum that goes on after its faults. Two left sides with the same terms of either
kind, in whatever order the kinds follow each other, are therefore both at fault or have the same
two sums (`SameTerms.ofText`), with nothing assumed of the addition of doubles.
-/

namespace Reckoner

open LinearForm

/-- The coefficient of a term with the letter of the unknown, the literal that another term is, and
nothing for a term at fault. -/
def termValue? (term : List Char) : Option Float :=
  match kindOf term with
  | .unknown => LinearForm.coefficient? (withoutLetters term)
  | .constant => readLiteral term

/-- What is reported of a term at fault. -/
def termFault? (term : List Char) : Option Fault :=
  match termValue? term with
  | some _ => none
  | none => some (.badTerm (String.ofList term) (kindOf term))

/-- The terms of one kind, in their order. -/
def termsOf (kind : TermKind) (terms : List (List Char)) : List (List Char) :=
  terms.filter (kindOf · = kind)

/-- The values of the terms of one kind that are not at fault, in their order. -/
def contributions (kind : TermKind) (terms : List (List Char)) : List Float :=
  (termsOf kind terms).filterMap termValue?

/-- Each of the two sums with its contributions added up from left to right. -/
def LinearForm.plus (form : LinearForm) (terms : List (List Char)) : LinearForm where
  a := (contributions .unknown terms).foldl (· + ·) form.a
  b := (contributions .constant terms).foldl (· + ·) form.b

/-- The same terms with the unknown in the same order, and the same other terms in the same order. -/
def SameTerms (left left' : List Char) : Prop :=
  ∀ kind, termsOf kind (fragments left) = termsOf kind (fragments left')

/-! ### One term -/

section Terms

variable {form : LinearForm} {term : List Char} {v : Float}

/-- A term is added to one of the sums, or is reported. -/
theorem addTerm_cases (form : LinearForm) (term : List Char) :
    (∃ v, termValue? term = some v ∧ form.addTerm term = .ok (form.add (kindOf term) v)) ∨
      termValue? term = none ∧
        form.addTerm term = .error (.badTerm (String.ofList term) (kindOf term)) := by
  by_cases hany : term.any isUnknown
  · have hkind : kindOf term = .unknown := if_pos hany
    have hletters : term.filter (!isUnknown ·) = withoutLetters term := rfl
    rw [termValue?, hkind, addTerm, if_pos hany, hletters]
    cases LinearForm.coefficient? (withoutLetters term) with
    | none => exact .inr ⟨rfl, rfl⟩
    | some v => exact .inl ⟨v, rfl, rfl⟩
  · have hkind : kindOf term = .constant := if_neg hany
    rw [termValue?, hkind, addTerm, if_neg hany]
    cases readLiteral term with
    | none => exact .inr ⟨rfl, rfl⟩
    | some v => exact .inl ⟨v, rfl, rfl⟩

theorem plus_nil (form : LinearForm) : form.plus [] = form := rfl

theorem plus_cons_of_value (h : termValue? term = some v) (form : LinearForm)
    (terms : List (List Char)) :
    form.plus (term :: terms) = (form.add (kindOf term) v).plus terms := by
  cases hkind : kindOf term <;>
    simp [LinearForm.plus, contributions, termsOf, hkind, h, LinearForm.add]

theorem plus_cons_of_fault (h : termValue? term = none) (form : LinearForm)
    (terms : List (List Char)) : form.plus (term :: terms) = form.plus terms := by
  cases hkind : kindOf term <;> simp [LinearForm.plus, contributions, termsOf, hkind, h]

end Terms

/-! ### Sequences of terms -/

section Sequences

/-- After each term of a sequence, whatever faults there were before, each sum is made of the terms
of its kind up to there. -/
theorem addTerms_getElem? (form : LinearForm) (terms : List (List Char)) (i : Nat) :
    (form.addTerms terms)[i]? =
      terms[i]?.map fun term => (form.plus (terms.take (i + 1)), termFault? term) := by
  induction terms generalizing form i with
  | nil => rfl
  | cons term terms ih =>
    rw [addTerms, List.take_succ_cons]
    obtain ⟨v, hv, hadd⟩ | ⟨hnone, hadd⟩ := addTerm_cases form term
    · rw [hadd, plus_cons_of_value hv]
      cases i with
      | zero => simp [termFault?, hv, plus_nil]
      | succ i => simpa using ih (form.add (kindOf term) v) i
    · rw [hadd, plus_cons_of_fault hnone]
      cases i with
      | zero => simp [termFault?, hnone, plus_nil]
      | succ i => simpa using ih form i

theorem foldlM_addTerm_of_values {terms : List (List Char)}
    (h : ∀ term ∈ terms, ∃ v, termValue? term = some v) (form : LinearForm) :
    terms.foldlM addTerm form = .ok (form.plus terms) := by
  induction terms generalizing form with
  | nil => rfl
  | cons term terms ih =>
    obtain ⟨⟨v, hv⟩, hrest⟩ := List.forall_mem_cons.mp h
    obtain ⟨w, hw, hadd⟩ | ⟨hnone, -⟩ := addTerm_cases form term
    · rw [List.foldlM_cons, hadd, plus_cons_of_value hw]
      exact ih hrest _
    · exact nomatch hnone.symm.trans hv

theorem exists_foldlM_error {term : List Char} {terms : List (List Char)} (hmem : term ∈ terms)
    (h : termValue? term = none) (form : LinearForm) :
    ∃ fault, terms.foldlM addTerm form = .error fault := by
  induction terms generalizing form with
  | nil => cases hmem
  | cons first terms ih =>
    rw [List.foldlM_cons]
    obtain ⟨v, hv, hadd⟩ | ⟨-, hadd⟩ := addTerm_cases form first
    · rw [hadd]
      rcases List.mem_cons.mp hmem with rfl | hmem
      · exact nomatch h.symm.trans hv
      · exact ih hmem _
    · rw [hadd]
      exact ⟨_, rfl⟩

end Sequences

/-! ### Left sides -/

namespace SameTerms

variable {left left' : List Char}

theorem symm (h : SameTerms left left') : SameTerms left' left :=
  fun kind => (h kind).symm

theorem plus_eq (h : SameTerms left left') (form : LinearForm) :
    form.plus (fragments left) = form.plus (fragments left') := by
  simp only [LinearForm.plus, contributions, h .unknown, h .constant]

theorem mem_fragments (h : SameTerms left left') {f : List Char} (hf : f ∈ fragments left) :
    f ∈ fragments left' := by
  have hmem : f ∈ termsOf (kindOf f) (fragments left) := List.mem_filter.mpr ⟨hf, by simp⟩
  rw [h (kindOf f)] at hmem
  exact (List.mem_filter.mp hmem).1

/-- Which faults there are does not depend on the order, and neither do the sums without a fault. -/
theorem ofText (h : SameTerms left left') :
    (∃ form, LinearForm.ofText left = .ok form ∧ LinearForm.ofText left' = .ok form) ∨
      ∃ fault fault', LinearForm.ofText left = .error fault ∧
        LinearForm.ofText left' = .error fault' := by
  simp only [LinearForm.ofText, terms_eq_fragments]
  by_cases hvalues : ∀ f ∈ fragments left, ∃ v, termValue? f = some v
  · refine .inl ⟨_, foldlM_addTerm_of_values hvalues zero, ?_⟩
    rw [h.plus_eq]
    exact foldlM_addTerm_of_values (fun f hf => hvalues f (h.symm.mem_fragments hf)) zero
  · push Not at hvalues
    obtain ⟨f, hf, hnone⟩ := hvalues
    replace hnone : termValue? f = none := Option.eq_none_iff_forall_ne_some.mpr hnone
    obtain ⟨fault, hfault⟩ := exists_foldlM_error hf hnone zero
    obtain ⟨fault', hfault'⟩ := exists_foldlM_error (h.mem_fragments hf) hnone zero
    exact .inr ⟨fault, fault', hfault, hfault'⟩

theorem solveEquation (h : SameTerms left left') {text text' : String} {right : List Char}
    (hcut : IsCut text left right) (hcut' : IsCut text' left' right) :
    (∃ x, Reckoner.solveEquation text = .ok x ∧ Reckoner.solveEquation text' = .ok x) ∨
      ∃ fault fault', Reckoner.solveEquation text = .error fault ∧
        Reckoner.solveEquation text' = .error fault' := by
  cases hright : readLiteral right with
  | none =>
    rw [solveEquation_eq_match hcut.1 hcut.2, solveEquation_eq_match hcut'.1 hcut'.2, hright]
    exact .inr ⟨_, _, rfl, rfl⟩
  | some rhs =>
    have hsolve := solveEquation_eq_of_cut hcut.1 hcut.2 hright
    have hsolve' := solveEquation_eq_of_cut hcut'.1 hcut'.2 hright
    obtain ⟨form, hform, hform'⟩ | ⟨fault, fault', hfault, hfault'⟩ := h.ofText
    · rw [hform] at hsolve
      rw [hform', ← hsolve] at hsolve'
      rw [hsolve']
      cases Reckoner.solveEquation text with
      | ok x => exact .inl ⟨x, rfl, rfl⟩
      | error fault => exact .inr ⟨fault, fault, rfl, rfl⟩
    · rw [hsolve, hsolve', hfault, hfault']
      exact .inr ⟨fault, fault', rfl, rfl⟩

theorem toEquation (h : SameTerms left left') {text text' : String} {right : List Char}
    (hcut : IsCut text left right) (hcut' : IsCut text' left' right) :
    (∃ x, Reply.toEquation text = .solved text x ∧ Reply.toEquation text' = .solved text' x) ∨
      ∃ message message', Reply.toEquation text = .refused message ∧
        Reply.toEquation text' = .refused message' := by
  unfold Reply.toEquation
  obtain ⟨x, hx, hx'⟩ | ⟨fault, fault', hfault, hfault'⟩ := h.solveEquation hcut hcut'
  · rw [hx, hx']
    exact .inl ⟨x, rfl, rfl⟩
  · rw [hfault, hfault']
    exact .inr ⟨fault.message, fault'.message, rfl, rfl⟩

end SameTerms

/-- A term adds its value to the sum of its kind and leaves the other one, or is at fault and leaves
both. So each sum is, after any sequence of terms and all its faults, the sum from left to right of
the values of its own kind. Left sides with the same terms of either kind are both at fault, or have
the same two sums, and equations that have them and the same right side the same solution. -/
theorem sums_kept_apart :
    (∀ (form : LinearForm) term,
      (∃ v, termValue? term = some v ∧ form.addTerm term = .ok (form.add (kindOf term) v) ∧
        ∀ terms, form.addTerms (term :: terms) =
          (form.add (kindOf term) v, none) :: (form.add (kindOf term) v).addTerms terms) ∨
      ∃ fault, termValue? term = none ∧ form.addTerm term = .error fault ∧
        ∀ terms, form.addTerms (term :: terms) = (form, some fault) :: form.addTerms terms) ∧
    (∀ (form : LinearForm) terms i, (form.addTerms terms)[i]? =
      terms[i]?.map fun term => (form.plus (terms.take (i + 1)), termFault? term)) ∧
    (∀ left left', SameTerms left left' →
      (∃ form, ofText left = .ok form ∧ ofText left' = .ok form) ∨
        ∃ fault fault', ofText left = .error fault ∧ ofText left' = .error fault') ∧
    ∀ text text' left left' right, IsCut text left right → IsCut text' left' right →
      SameTerms left left' →
      (∃ x, Reply.toEquation text = .solved text x ∧ Reply.toEquation text' = .solved text' x) ∨
        ∃ message message', Reply.toEquation text = .refused message ∧
          Reply.toEquation text' = .refused message' := by
  refine ⟨fun form term => ?_, addTerms_getElem?, fun left left' => SameTerms.ofText,
    fun _ _ _ _ _ hcut hcut' h => h.toEquation hcut hcut'⟩
  obtain ⟨v, hv, hadd⟩ | ⟨hnone, hadd⟩ := addTerm_cases form term
  · exact .inl ⟨v, hv, hadd, fun terms => by rw [addTerms, hadd]⟩
  · exact .inr ⟨_, hnone, hadd, fun terms => by rw [addTerms, hadd]⟩

theorem sums_kept_apart_interleaved :
    SameTerms "0.1x-3+0.2X+5+0.3x".toList "-3+5+0.1x+0.2X+0.3x".toList ∧
      ofText "0.1x-3+0.2X+5+0.3x".toList = .ok ⟨0.6000000000000001, 2⟩ ∧
      ofText "-3+5+0.1x+0.2X+0.3x".toList = .ok ⟨0.6000000000000001, 2⟩ ∧
      (IsCut "0.1x-3+0.2X+5+0.3x = 2" "0.1x-3+0.2X+5+0.3x".toList ['2'] ∧
        IsCut "-3+5+0.1x+0.2X+0.3x=2" "-3+5+0.1x+0.2X+0.3x".toList ['2']) ∧
      Reply.toEquation "0.1x-3+0.2X+5+0.3x = 2" = .solved "0.1x-3+0.2X+5+0.3x = 2" 0 ∧
      Reply.toEquation "-3+5+0.1x+0.2X+0.3x=2" = .solved "-3+5+0.1x+0.2X+0.3x=2" 0 := by
  have hsame : SameTerms "0.1x-3+0.2X+5+0.3x".toList "-3+5+0.1x+0.2X+0.3x".toList := by
    intro kind
    cases kind <;> decide +kernel
  have hleft : ofText "0.1x-3+0.2X+5+0.3x".toList = .ok ⟨0.6000000000000001, 2⟩ := by
    decide +kernel
  have hcut : IsCut "0.1x-3+0.2X+5+0.3x = 2" "0.1x-3+0.2X+5+0.3x".toList ['2'] :=
    ⟨by decide, by decide⟩
  have hcut' : IsCut "-3+5+0.1x+0.2X+0.3x=2" "-3+5+0.1x+0.2X+0.3x".toList ['2'] :=
    ⟨by decide, by decide⟩
  have hsolved : Reply.toEquation "0.1x-3+0.2X+5+0.3x = 2" =
      .solved "0.1x-3+0.2X+5+0.3x = 2" 0 := by decide +kernel
  obtain ⟨-, -, hforms, hsolutions⟩ := sums_kept_apart
  refine ⟨hsame, hleft, ?_, ⟨hcut, hcut'⟩, hsolved, ?_⟩
  · obtain ⟨form, hform, hform'⟩ | ⟨fault, fault', hfault, -⟩ := hforms _ _ hsame
    · rwa [hleft.symm.trans hform]
    · exact nomatch hleft.symm.trans hfault
  · obtain ⟨x, hx, hx'⟩ | ⟨message, message', hrefused, -⟩ := hsolutions _ _ _ _ _ hcut hcut' hsame
    · obtain ⟨-, rfl⟩ := Reply.solved.inj (hsolved.symm.trans hx)
      exact hx'
    · exact nomatch hsolved.symm.trans hrefused

end Reckoner
