import Mathlib.Data.List.Forall2
import Reckoner.Equation.Fragment
import Reckoner.Equation.Lemmas
import Reckoner.Proofs.Literals
import Reckoner.Reply

/-!
# Coefficients are written in the terms

The terms of a sum are its fragments (`terms_eq_fragments`), and a fragment has no sign but a minus
at its head (`exists_of_mem_fragments`). So a fragment that is added up denotes what is added
(`denotes_of_addTerm`) and nothing else (`addTerm_of_denotes`), and along a sum without a fault the
two sums are those of the values denoted (`exists_parts_of_foldlM`, `foldlM_of_denotes`). The
letters may stand anywhere in a term, also within its coefficient: `not_contiguous_of_split`.
-/

namespace Reckoner

open LinearForm Summand

section Fragments

variable {cs f : List Char}

theorem splitOn_markTerms (cs : List Char) : (markTerms cs).splitOn '+' = cut cs := by
  induction cs with
  | nil => rfl
  | cons c cs ih =>
    by_cases hplus : c = '+'
    · subst hplus
      have hmark : markTerms ('+' :: cs) = '+' :: markTerms cs := rfl
      rw [hmark, List.splitOn_cons_eq_if_modifyHead, ih]
      rfl
    · by_cases hminus : c = '-'
      · subst hminus
        have hmark : markTerms ('-' :: cs) = '+' :: '-' :: markTerms cs := rfl
        rw [hmark, List.splitOn_cons_eq_if_modifyHead, List.splitOn_cons_eq_if_modifyHead, ih]
        rfl
      · have hmark : markTerms (c :: cs) = c :: markTerms cs := by
          simp [markTerms, hminus]
        rw [hmark, List.splitOn_cons_eq_if_modifyHead, ih]
        simp [cut, hplus, hminus]

theorem terms_eq_fragments (cs : List Char) : terms cs = fragments cs := by
  rw [terms, splitOn_markTerms, fragments]

def Unsigned (cs : List Char) : Prop :=
  ∀ c ∈ cs, c ≠ '+' ∧ c ≠ '-'

theorem Unsigned.nil : Unsigned [] := by simp [Unsigned]

theorem Unsigned.cons {c : Char} (hplus : c ≠ '+') (hminus : c ≠ '-') (h : Unsigned cs) :
    Unsigned (c :: cs) :=
  List.forall_mem_cons.mpr ⟨⟨hplus, hminus⟩, h⟩

/-- The first piece stands behind no minus; any other has one in front of it or none. -/
theorem exists_cut_eq_cons (cs : List Char) :
    ∃ head tail, cut cs = head :: tail ∧ Unsigned head ∧
      ∀ f ∈ tail, ∃ negative body, f = withMinus negative body ∧ Unsigned body := by
  induction cs with
  | nil => exact ⟨[], [], rfl, .nil, by simp⟩
  | cons c cs ih =>
    obtain ⟨head, tail, hcut, hhead, htail⟩ := ih
    by_cases hplus : c = '+'
    · refine ⟨[], head :: tail, by simp [cut, hplus, hcut], .nil,
        List.forall_mem_cons.mpr ⟨?_, htail⟩⟩
      exact ⟨false, head, rfl, hhead⟩
    · by_cases hminus : c = '-'
      · refine ⟨[], ('-' :: head) :: tail, by simp [cut, hminus, hcut], .nil,
          List.forall_mem_cons.mpr ⟨?_, htail⟩⟩
        exact ⟨true, head, rfl, hhead⟩
      · exact ⟨c :: head, tail, by simp [cut, hplus, hminus, hcut], hhead.cons hplus hminus, htail⟩

theorem exists_of_mem_fragments (h : f ∈ fragments cs) :
    ∃ negative body, f = withMinus negative body ∧ Unsigned body := by
  obtain ⟨head, tail, hcut, hhead, htail⟩ := exists_cut_eq_cons cs
  rw [fragments, hcut, List.mem_filter] at h
  rcases List.mem_cons.mp h.1 with rfl | hf
  · exact ⟨false, f, rfl, hhead⟩
  · exact htail f hf

end Fragments

section Values

variable {cs : List Char} {negative : Bool} {form next : LinearForm}

/-- Where the sign of a literal is its only one, it is the sign of its value. -/
theorem readLiteral_withMinus_eq_some {v : Float} (hcs : Unsigned cs)
    (h : readLiteral (withMinus negative cs) = some v) :
    ∃ w, readLiteral cs = some w ∧ IsMagnitude cs ∧ v = signed negative w := by
  cases negative with
  | false => exact ⟨v, h, (isLiteral_of_readLiteral h).isMagnitude hcs, rfl⟩
  | true =>
    obtain ⟨w, hw, rfl⟩ := exists_of_readLiteral_minus hcs h
    exact ⟨w, hw, (isLiteral_of_readLiteral hw).isMagnitude hcs, rfl⟩

theorem IsMagnitude.isUnknown_eq_false (h : IsMagnitude cs) {c : Char} (hc : c ∈ cs) :
    isUnknown c = false :=
  LinearForm.isUnknown_eq_false (h.mem hc)

theorem IsMagnitude.readLiteral_withMinus (h : IsMagnitude cs) {v : Float}
    (hcs : readLiteral cs = some v) :
    readLiteral (withMinus negative cs) = some (signed negative v) := by
  cases negative with
  | false => exact hcs
  | true => exact readLiteral_minus_of_takeSign hcs h.takeSign_eq

theorem any_isUnknown_withMinus (negative : Bool) (cs : List Char) :
    (withMinus negative cs).any isUnknown = cs.any isUnknown := by
  cases negative <;> rfl

theorem withoutLetters_withMinus (negative : Bool) (cs : List Char) :
    (withMinus negative cs).filter (!isUnknown ·) = withMinus negative (withoutLetters cs) := by
  cases negative <;> rfl

theorem coefficient?_withMinus_nil (negative : Bool) :
    LinearForm.coefficient? (withMinus negative []) = some (signed negative 1) := by
  cases negative <;> rfl

/-- Beside nothing and a bare sign there are only literals. -/
theorem coefficient?_withMinus_of_ne_nil (hcs : Unsigned cs) (hne : cs ≠ []) :
    LinearForm.coefficient? (withMinus negative cs) = readLiteral (withMinus negative cs) := by
  unfold LinearForm.coefficient?
  split
  all_goals rename_i heq
  · cases negative <;> simp_all [withMinus]
  · cases negative <;> simp_all [withMinus, Unsigned]
  · cases negative <;> simp_all [withMinus, Unsigned]
  · rfl

theorem Unsigned.withoutLetters (hcs : Unsigned cs) : Unsigned (withoutLetters cs) :=
  fun c hc => hcs c (List.mem_filter.mp hc).1

theorem isUnknown_of_withoutLetters_eq_nil (h : withoutLetters cs = []) :
    ∀ c ∈ cs, isUnknown c := by
  simpa [withoutLetters, List.filter_eq_nil_iff] using h

/-- What a term adds to a form. -/
def LinearForm.add (form : LinearForm) : TermKind → Float → LinearForm
  | .unknown, v => { form with a := form.a + v }
  | .constant, v => { form with b := form.b + v }

theorem denotes_of_coefficient? {v : Float} (hcs : Unsigned cs) (hletter : ∃ x ∈ cs, isUnknown x)
    (h : LinearForm.coefficient? (withMinus negative (withoutLetters cs)) = some v) :
    Denotes (withMinus negative cs) .unknown v := by
  by_cases hnil : withoutLetters cs = []
  · rw [hnil, coefficient?_withMinus_nil] at h
    obtain rfl := Option.some.inj h
    obtain ⟨x, hx, -⟩ := hletter
    exact .letters negative (isUnknown_of_withoutLetters_eq_nil hnil) (List.ne_nil_of_mem hx)
  · rw [coefficient?_withMinus_of_ne_nil hcs.withoutLetters hnil] at h
    obtain ⟨w, hw, literal, rfl⟩ := readLiteral_withMinus_eq_some hcs.withoutLetters h
    exact .coefficient negative hletter literal hw

theorem denotes_of_addTerm (hcs : Unsigned cs)
    (h : form.addTerm (withMinus negative cs) = .ok next) :
    ∃ kind v, Denotes (withMinus negative cs) kind v ∧ next = form.add kind v := by
  unfold addTerm at h
  rw [any_isUnknown_withMinus, withoutLetters_withMinus] at h
  split at h
  · rename_i hany
    split at h
    · rename_i v hv
      cases h
      exact ⟨.unknown, v, denotes_of_coefficient? hcs (List.any_eq_true.mp hany) hv, rfl⟩
    · cases h
  · split at h
    · rename_i v hv
      cases h
      obtain ⟨w, hw, literal, rfl⟩ := readLiteral_withMinus_eq_some hcs hv
      exact ⟨.constant, signed negative w, .constant negative literal hw, rfl⟩
    · cases h

theorem addTerm_of_coefficient? {v : Float} (hletter : ∃ x ∈ cs, isUnknown x)
    (h : LinearForm.coefficient? (withMinus negative (withoutLetters cs)) = some v) :
    form.addTerm (withMinus negative cs) = .ok (form.add .unknown v) := by
  have hany : (withMinus negative cs).any isUnknown = true := by
    rw [any_isUnknown_withMinus]
    exact List.any_eq_true.mpr hletter
  simp only [addTerm, hany, if_true, withoutLetters_withMinus, h]
  rfl

/-- What a fragment denotes is what it adds, so that there is nothing else that it denotes. -/
theorem addTerm_of_denotes {kind : TermKind} {v : Float} (h : Denotes cs kind v) :
    form.addTerm cs = .ok (form.add kind v) := by
  cases h with
  | constant negative literal reads =>
    exact addTerm_constant form (literal.readLiteral_withMinus reads)
  | @letters negative xs hxs hne =>
    obtain ⟨x, hx⟩ := List.exists_mem_of_ne_nil xs hne
    have hnil : withoutLetters xs = [] :=
      List.filter_eq_nil_iff.mpr fun x hx => by simp [hxs x hx]
    refine addTerm_of_coefficient? ⟨x, hx, hxs x hx⟩ ?_
    rw [hnil]
    exact coefficient?_withMinus_nil negative
  | coefficient negative letter literal reads =>
    exact addTerm_of_coefficient? letter
      (coefficient?_of_readLiteral (literal.readLiteral_withMinus reads))

end Values

section Sums

variable {form next : LinearForm}

/-- Adds up the values of both kinds. -/
def LinearForm.addAll (form : LinearForm) (parts : List (TermKind × Float)) : LinearForm :=
  parts.foldl (fun form part => form.add part.1 part.2) form

theorem addAll_eq (form : LinearForm) (parts : List (TermKind × Float)) :
    form.addAll parts =
      ⟨(valuesOf .unknown parts).foldl (· + ·) form.a,
        (valuesOf .constant parts).foldl (· + ·) form.b⟩ := by
  induction parts generalizing form with
  | nil => rfl
  | cons part parts ih =>
    obtain ⟨kind, v⟩ := part
    have hstep : form.addAll (⟨kind, v⟩ :: parts) = (form.add kind v).addAll parts := rfl
    rw [hstep, ih]
    cases kind <;> rfl

theorem exists_parts_of_foldlM {fs : List (List Char)}
    (hfs : ∀ f ∈ fs, ∃ negative body, f = withMinus negative body ∧ Unsigned body)
    (h : fs.foldlM addTerm form = .ok next) :
    ∃ parts, List.Forall₂ (fun f part => Denotes f part.1 part.2) fs parts ∧
      next = form.addAll parts := by
  induction fs generalizing form with
  | nil =>
    cases h
    exact ⟨[], .nil, rfl⟩
  | cons f fs ih =>
    obtain ⟨⟨negative, body, rfl, hbody⟩, hrest⟩ := List.forall_mem_cons.mp hfs
    rw [List.foldlM_cons] at h
    cases hadd : form.addTerm (withMinus negative body) with
    | error fault =>
      rw [hadd] at h
      cases h
    | ok middle =>
      rw [hadd] at h
      obtain ⟨kind, v, hdenotes, rfl⟩ := denotes_of_addTerm hbody hadd
      obtain ⟨parts, hparts, rfl⟩ := ih hrest h
      exact ⟨⟨kind, v⟩ :: parts, .cons hdenotes hparts, rfl⟩

theorem exists_parts_of_ofText {cs : List Char} (h : ofText cs = .ok form) :
    ∃ parts, List.Forall₂ (fun f part => Denotes f part.1 part.2) (fragments cs) parts ∧
      form = ⟨total (valuesOf .unknown parts), total (valuesOf .constant parts)⟩ := by
  rw [ofText, terms_eq_fragments] at h
  obtain ⟨parts, hparts, rfl⟩ := exists_parts_of_foldlM (fun f => exists_of_mem_fragments) h
  exact ⟨parts, hparts, addAll_eq zero parts⟩

theorem foldlM_of_denotes {fs : List (List Char)} {parts : List (TermKind × Float)}
    (h : List.Forall₂ (fun f part => Denotes f part.1 part.2) fs parts) :
    fs.foldlM addTerm form = .ok (form.addAll parts) := by
  induction h generalizing form with
  | nil => rfl
  | cons hdenotes _ ih =>
    rw [List.foldlM_cons, addTerm_of_denotes hdenotes]
    exact ih

theorem ofText_of_denotes {cs : List Char} {parts : List (TermKind × Float)}
    (h : List.Forall₂ (fun f part => Denotes f part.1 part.2) (fragments cs) parts) :
    ofText cs = .ok ⟨total (valuesOf .unknown parts), total (valuesOf .constant parts)⟩ := by
  rw [ofText, terms_eq_fragments, foldlM_of_denotes h]
  exact congrArg Except.ok (addAll_eq zero parts)

end Sums

section Solutions

variable {text equation : String} {x : Float}

/-- An equation that is solved is cut at its first equals sign, its right side is a literal and its
left side a sum without a fault. -/
theorem exists_of_solveEquation_ok (h : solveEquation text = .ok x) :
    ∃ left right rhs form, withoutBlanks text.toList = left ++ '=' :: right ∧ '=' ∉ left ∧
      readLiteral right = some rhs ∧ ofText left = .ok form ∧ x = (rhs - form.b) / form.a := by
  by_cases hmem : '=' ∈ withoutBlanks text.toList
  · obtain ⟨left, right, htext, hleft⟩ := List.eq_append_cons_of_mem hmem
    rw [solveEquation_eq_match htext hleft] at h
    cases hright : readLiteral right with
    | none => simp [hright, throw, throwThe, MonadExceptOf.throw] at h
    | some rhs =>
      cases hform : ofText left with
      | error fault => simp [hright, hform, bind, Except.bind] at h
      | ok form =>
        refine ⟨left, right, rhs, form, htext, hleft, hright, hform, ?_⟩
        by_cases hleast : form.a.abs < leastCoefficient
        · simp [hright, hform, hleast, bind, Except.bind, throw, throwThe, MonadExceptOf.throw] at h
        · simpa [hright, hform, hleast, bind, Except.bind, pure, Except.pure, eq_comm] using h
  · rw [solveEquation_of_not_mem hmem] at h
    cases h

theorem solveEquation_of_toEquation (h : Reply.toEquation text = .solved equation x) :
    solveEquation text = .ok x := by
  unfold Reply.toEquation at h
  cases hsolve : solveEquation text with
  | ok y =>
    rw [hsolve] at h
    cases h
    rfl
  | error fault =>
    rw [hsolve] at h
    cases h

/-- Every fragment of the left side denotes one of the values that the solution is made of. -/
theorem exists_parts_of_toEquation (h : Reply.toEquation text = .solved equation x) :
    ∃ left right rhs parts, withoutBlanks text.toList = left ++ '=' :: right ∧ '=' ∉ left ∧
      readLiteral right = some rhs ∧
      List.Forall₂ (fun f part => Denotes f part.1 part.2) (fragments left) parts ∧
      x = (rhs - total (valuesOf .constant parts)) / total (valuesOf .unknown parts) := by
  obtain ⟨left, right, rhs, form, htext, hleft, hright, hform, hx⟩ :=
    exists_of_solveEquation_ok (solveEquation_of_toEquation h)
  obtain ⟨parts, hparts, rfl⟩ := exists_parts_of_ofText hform
  exact ⟨left, right, rhs, parts, htext, hleft, hright, hparts, hx⟩

theorem exists_parts_mixedTerms :
    Reply.toEquation "1x2 -3+xx=23" = .solved "1x2 -3+xx=23" 2 ∧
      ∃ left right rhs parts, withoutBlanks "1x2 -3+xx=23".toList = left ++ '=' :: right ∧
        '=' ∉ left ∧ readLiteral right = some rhs ∧
        List.Forall₂ (fun f part => Denotes f part.1 part.2) (fragments left) parts ∧
        2 = (rhs - total (valuesOf .constant parts)) / total (valuesOf .unknown parts) := by
  have hsolved : Reply.toEquation "1x2 -3+xx=23" = .solved "1x2 -3+xx=23" 2 := by decide +kernel
  exact ⟨hsolved, exists_parts_of_toEquation hsolved⟩

theorem not_contiguous_of_split {c d : Char} {cs : List Char} (hc : ¬ isUnknown c)
    (hd : ¬ isUnknown d) (hcs : ∃ x ∈ cs, isUnknown x) : ¬ Contiguous (c :: cs ++ [d]) := by
  intro h
  generalize hbody : c :: cs ++ [d] = body at h
  cases h with
  | constant literal =>
    obtain ⟨x, hx, hunknown⟩ := hcs
    have hmem : x ∈ body := by simp [← hbody, hx]
    simp [literal.isUnknown_eq_false hmem] at hunknown
  | letters hxs hne =>
    exact hc (hxs c (by simp [← hbody]))
  | @before literal letters _ hxs hne =>
    obtain ⟨xs, x, rfl⟩ := (List.eq_nil_or_concat letters).resolve_left hne
    rw [List.concat_eq_append, ← List.append_assoc] at hbody
    obtain rfl : d = x := by simpa using List.append_inj_right' hbody rfl
    exact hd (hxs d (by simp))
  | @behind literal letters _ hxs hne =>
    obtain ⟨x, xs, rfl⟩ := List.exists_cons_of_ne_nil hne
    obtain rfl : c = x := (List.cons.inj hbody).1
    exact hc (hxs c (by simp))

/-- The letter cuts the coefficient `12` in two. -/
theorem solved_splitCoefficient :
    Reply.toEquation "1x2=24" = .solved "1x2=24" 2 ∧
      withoutBlanks "1x2=24".toList = "1x2".toList ++ '=' :: "24".toList ∧
      "1x2".toList ∈ fragments "1x2".toList ∧
      ∀ sign body, "1x2".toList = sign ++ body → IsSign sign → ¬ Contiguous body := by
  refine ⟨by decide +kernel, by decide +kernel, by decide +kernel, ?_⟩
  intro sign body hbody hsign
  rcases hsign with rfl | rfl | rfl
  · obtain rfl : ['1', 'x', '2'] = body := hbody
    have hone : ¬ isUnknown '1' := by decide
    have htwo : ¬ isUnknown '2' := by decide
    exact not_contiguous_of_split hone htwo ⟨'x', List.mem_singleton_self 'x', rfl⟩
  · cases hbody
  · cases hbody

end Solutions

end Reckoner
