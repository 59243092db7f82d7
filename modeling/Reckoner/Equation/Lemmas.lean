import Reckoner.Equation
import Reckoner.Text.Literal.Lemmas

/-!
# Lemmas about linear equations

`terms` is described by what it does at a plus and at a minus (`terms_append_plus`,
`terms_append_minus`) and on a text without signs, so that nothing has to look at the marked text
again. `addTerm` gets one lemma for a term with the letter at its end and one for a literal.
-/

namespace Reckoner

namespace LinearForm

section Terms

variable {cs ds : List Char}

theorem markTerms_append (cs ds : List Char) :
    markTerms (cs ++ ds) = markTerms cs ++ markTerms ds :=
  List.flatMap_append

theorem markTerms_eq_self (h : '-' ∉ cs) : markTerms cs = cs := by
  induction cs with
  | nil => rfl
  | cons c cs ih =>
    have hc : c ≠ '-' := fun hc => h (by simp [hc])
    have hcs : markTerms cs = cs := ih fun hcs => h (List.mem_cons_of_mem c hcs)
    unfold markTerms at *
    rw [List.flatMap_cons, if_neg hc, hcs]
    rfl

theorem terms_append_plus (cs ds : List Char) : terms (cs ++ '+' :: ds) = terms cs ++ terms ds := by
  have hmark : markTerms ('+' :: ds) = '+' :: markTerms ds := rfl
  rw [terms, markTerms_append, hmark, List.splitOn_append_cons_self, List.filter_append]
  rfl

theorem terms_minus (cs : List Char) :
    terms ('-' :: cs) = (('-' :: markTerms cs).splitOn '+').filter (· ≠ []) := by
  have hmark : markTerms ('-' :: cs) = [] ++ '+' :: '-' :: markTerms cs := rfl
  rw [terms, hmark, List.splitOn_append_cons_self, List.filter_append]
  rfl

theorem terms_append_minus (cs ds : List Char) :
    terms (cs ++ '-' :: ds) = terms cs ++ terms ('-' :: ds) := by
  have hmark : markTerms ('-' :: ds) = '+' :: '-' :: markTerms ds := rfl
  rw [terms_minus, terms, markTerms_append, hmark, List.splitOn_append_cons_self,
    List.filter_append]
  rfl

theorem terms_of_unsigned (h : ∀ c ∈ cs, c ≠ '+' ∧ c ≠ '-') (hne : cs ≠ []) : terms cs = [cs] := by
  rw [terms, markTerms_eq_self fun hc => (h '-' hc).2 rfl,
    List.splitOn_eq_singleton fun hc => (h '+' hc).1 rfl]
  simp [hne]

theorem terms_minus_of_unsigned (h : ∀ c ∈ cs, c ≠ '+' ∧ c ≠ '-') :
    terms ('-' :: cs) = ['-' :: cs] := by
  have hplus : '+' ∉ '-' :: cs := by
    intro hc
    rcases List.mem_cons.mp hc with hc | hc
    · cases hc
    · exact (h '+' hc).1 rfl
  rw [terms_minus, markTerms_eq_self fun hc => (h '-' hc).2 rfl, List.splitOn_eq_singleton hplus]
  rfl

end Terms

section AddTerm

variable {cs : List Char} {v : Float}

theorem isUnknown_eq_false {c : Char} (h : c.isDigit ∨ c ∈ ['.', 'e', 'E', '+', '-']) :
    isUnknown c = false := by
  rcases h with hd | hc
  · simp [isUnknown, ne_of_isDigit hd (rfl : 'x'.isDigit = false),
      ne_of_isDigit hd (rfl : 'X'.isDigit = false)]
  · simp only [List.mem_cons, List.not_mem_nil, or_false] at hc
    rcases hc with rfl | rfl | rfl | rfl | rfl <;> rfl

theorem isUnknown_of_readLiteral (h : readLiteral cs = some v) {c : Char} (hc : c ∈ cs) :
    isUnknown c = false :=
  isUnknown_eq_false (mem_of_readLiteral h hc)

/-- A bare sign is no literal, so a literal is read for what it says. -/
theorem coefficient?_of_readLiteral (h : readLiteral cs = some v) : coefficient? cs = some v := by
  unfold coefficient?
  split
  · exact nomatch (rfl : readLiteral [] = none).symm.trans h
  · exact nomatch (rfl : readLiteral ['+'] = none).symm.trans h
  · exact nomatch (rfl : readLiteral ['-'] = none).symm.trans h
  · exact h

theorem addTerm_unknown (form : LinearForm) {x : Char} (hcs : ∀ c ∈ cs, isUnknown c = false)
    (hx : isUnknown x = true) (h : coefficient? cs = some v) :
    form.addTerm (cs ++ [x]) = .ok { form with a := form.a + v } := by
  have hany : (cs ++ [x]).any isUnknown = true := by simp [hx]
  have hfilter : (cs ++ [x]).filter (!isUnknown ·) = cs := by
    rw [List.filter_append, List.filter_eq_self.mpr fun c hc => by simp [hcs c hc]]
    simp [hx]
  simp only [addTerm, hany, if_true, hfilter, h]

theorem addTerm_constant (form : LinearForm) (h : readLiteral cs = some v) :
    form.addTerm cs = .ok { form with b := form.b + v } := by
  have hany : cs.any isUnknown = false :=
    List.any_eq_false.mpr fun c hc => by simp [isUnknown_of_readLiteral h hc]
  simp [addTerm, hany, h]

end AddTerm

end LinearForm

section Cut

variable {text : String} {left right : List Char}

/-- What is left of solving an equation once it is cut at its first equals sign. -/
theorem solveEquation_eq_match (h : withoutBlanks text.toList = left ++ '=' :: right)
    (hleft : '=' ∉ left) :
    solveEquation text =
      match readLiteral right with
      | none => throw (.rightSideNotNumber (String.ofList right))
      | some rhs => do
        let form ← LinearForm.ofText left
        if form.a.abs < leastCoefficient then throw .noUniqueSolution
        return (rhs - form.b) / form.a := by
  have hne : ∀ c ∈ left, (c ≠ '=' : Bool) = true := by
    intro c hc
    simpa using fun heq : c = '=' => hleft (heq ▸ hc)
  have htake : (left ++ '=' :: right).takeWhile (· ≠ '=') = left := by
    rw [List.takeWhile_append_of_pos hne]
    simp
  have hdrop : (left ++ '=' :: right).dropWhile (· ≠ '=') = '=' :: right := by
    rw [List.dropWhile_append_of_pos hne]
    simp
  cases hright : readLiteral right with
  | none => simp only [solveEquation, h, hdrop, hright]
  | some rhs => simp only [solveEquation, h, htake, hdrop, hright]

/-- With a right side that is read, only the left one can have a fault. -/
theorem solveEquation_eq_of_cut {rhs : Float}
    (h : withoutBlanks text.toList = left ++ '=' :: right) (hleft : '=' ∉ left)
    (hright : readLiteral right = some rhs) :
    solveEquation text = do
      let form ← LinearForm.ofText left
      if form.a.abs < leastCoefficient then throw .noUniqueSolution
      return (rhs - form.b) / form.a := by
  rw [solveEquation_eq_match h hleft, hright]

theorem solveEquation_of_not_mem (h : '=' ∉ withoutBlanks text.toList) :
    solveEquation text = .error .missingEquals := by
  have hne : ∀ c ∈ withoutBlanks text.toList, (c ≠ '=' : Bool) = true := by
    intro c hc
    simpa using fun heq : c = '=' => h (heq ▸ hc)
  have hdrop : (withoutBlanks text.toList ++ []).dropWhile (· ≠ '=') = [] :=
    List.dropWhile_append_of_pos hne
  rw [List.append_nil] at hdrop
  simp only [solveEquation, hdrop]
  rfl

end Cut

end Reckoner
