import Reckoner.Equation.Lemmas
import Reckoner.Equation.Summand
import Reckoner.Reply

/-!
# Written equations are solved as their terms say

The left side of an equation is cut by rewriting its text and never read as a list of terms.
`terms_leftSide` gets the list back: what is cut are the fragments of the terms, in order and with
their signs. `addTerm_fragment` says what each of them adds, so `ofText_leftSide` gives the two sums
and `toEquation_of_leftSide` the reply, with blanks anywhere in the equation.
-/

namespace Reckoner

open LinearForm

section Characters

/-- The characters of an equation that a sum of terms can have. -/
def isSumChar (c : Char) : Bool :=
  c.isDigit || ['.', 'e', 'E', '+', '-', 'x', 'X'].contains c

theorem isSumChar_of_readLiteral {cs : List Char} {v : Float} (h : readLiteral cs = some v)
    {c : Char} (hc : c ∈ cs) : isSumChar c = true := by
  rcases mem_of_readLiteral h hc with hd | hc
  · simp [isSumChar, hd]
  · simp only [List.mem_cons, List.not_mem_nil, or_false] at hc
    rcases hc with rfl | rfl | rfl | rfl | rfl <;> rfl

theorem ne_equals_of_isSumChar {c : Char} (h : isSumChar c = true) : c ≠ '=' := by
  rintro rfl
  cases h

theorem isBlank_of_isSumChar {c : Char} (h : isSumChar c = true) : isBlank c = false := by
  rcases Bool.or_eq_true_iff.mp h with hd | hc
  · exact isBlank_of_isDigit hd
  · simp only [List.contains_eq_mem, List.mem_cons, List.not_mem_nil, or_false,
      decide_eq_true_eq] at hc
    rcases hc with rfl | rfl | rfl | rfl | rfl | rfl | rfl <;> rfl

end Characters

namespace Monomial

theorem isUnknown_letter (capital : Bool) : isUnknown (letter capital) = true := by
  cases capital <;> rfl

theorem isSumChar_of_mem_factorChars {factor : Option UnsignedLiteral} {c : Char}
    (hc : c ∈ factorChars factor) : isSumChar c = true := by
  cases factor with
  | none => cases hc
  | some l => exact isSumChar_of_readLiteral l.reads hc

theorem isSumChar_of_mem {m : Monomial} {c : Char} (hc : c ∈ m.chars) : isSumChar c = true := by
  cases m with
  | unknown factor capital =>
    rcases List.mem_append.mp hc with hc | hc
    · exact isSumChar_of_mem_factorChars hc
    · obtain rfl := List.mem_singleton.mp hc
      cases capital <;> rfl
  | constant l => exact isSumChar_of_readLiteral l.reads hc

theorem unsigned {m : Monomial} : ∀ c ∈ m.chars, c ≠ '+' ∧ c ≠ '-' := by
  intro c hc
  cases m with
  | unknown factor capital =>
    rcases List.mem_append.mp hc with hc | hc
    · cases factor with
      | none => cases hc
      | some l => exact l.unsigned c hc
    · obtain rfl := List.mem_singleton.mp hc
      cases capital <;> exact ⟨by decide, by decide⟩
  | constant l => exact l.unsigned c hc

theorem chars_ne_nil (m : Monomial) : m.chars ≠ [] := by
  intro h
  cases m with
  | unknown factor capital => simp [chars] at h
  | constant l =>
    have hreads : readLiteral [] = some l.value := h ▸ l.reads
    cases hreads

end Monomial

namespace Summand

theorem isSumChar_of_mem_printed {t : Summand} {c : Char} (hc : c ∈ t.printed) :
    isSumChar c = true := by
  rcases List.mem_cons.mp hc with rfl | hc
  · cases t.negative <;> rfl
  · exact Monomial.isSumChar_of_mem hc

theorem isSumChar_of_mem_fragment {t : Summand} {c : Char} (hc : c ∈ t.fragment) :
    isSumChar c = true := by
  unfold fragment withMinus at hc
  split at hc
  · rcases List.mem_cons.mp hc with rfl | hc
    · rfl
    · exact Monomial.isSumChar_of_mem hc
  · exact Monomial.isSumChar_of_mem hc

theorem isSumChar_of_mem_leftSide {omitPlus : Bool} {ts : List Summand} {c : Char}
    (hc : c ∈ leftSide omitPlus ts) : isSumChar c = true := by
  cases ts with
  | nil => cases hc
  | cons t ts =>
    rcases List.mem_append.mp hc with hc | hc
    · cases omitPlus with
      | false => exact isSumChar_of_mem_printed hc
      | true => exact isSumChar_of_mem_fragment hc
    · obtain ⟨t', -, hc⟩ := List.mem_flatMap.mp hc
      exact isSumChar_of_mem_printed hc

section Terms

theorem terms_fragment (t : Summand) : terms t.fragment = [t.fragment] := by
  unfold fragment withMinus
  cases t.negative with
  | false => exact terms_of_unsigned Monomial.unsigned (Monomial.chars_ne_nil _)
  | true => exact terms_minus_of_unsigned Monomial.unsigned

theorem terms_append_printed (cs : List Char) (t : Summand) :
    terms (cs ++ t.printed) = terms cs ++ [t.fragment] := by
  rw [← terms_fragment]
  unfold printed fragment withMinus
  cases t.negative with
  | false => exact terms_append_plus cs _
  | true => exact terms_append_minus cs _

theorem terms_append_flatMap (cs : List Char) (ts : List Summand) :
    terms (cs ++ ts.flatMap printed) = terms cs ++ ts.map fragment := by
  induction ts generalizing cs with
  | nil => simp
  | cons t ts ih =>
    rw [List.flatMap_cons, ← List.append_assoc, ih, terms_append_printed, List.append_assoc]
    rfl

theorem terms_leftSide (omitPlus : Bool) (ts : List Summand) :
    terms (leftSide omitPlus ts) = ts.map fragment := by
  cases ts with
  | nil => rfl
  | cons t ts =>
    cases omitPlus with
    | false => exact terms_append_flatMap [] (t :: ts)
    | true =>
      have h := terms_append_flatMap t.fragment ts
      rw [terms_fragment] at h
      exact h

end Terms

section Sums

/-- What a term is to add to a form. -/
def addTo (form : LinearForm) (t : Summand) : LinearForm where
  a := t.coefficient?.elim form.a (form.a + ·)
  b := t.constant?.elim form.b (form.b + ·)

theorem readLiteral_withMinus (negative : Bool) (l : UnsignedLiteral) :
    readLiteral (withMinus negative l.chars) = some (signed negative l.value) := by
  cases negative with
  | false => exact l.reads
  | true => exact readLiteral_minus l.reads l.unsigned

theorem isUnknown_withMinus (negative : Bool) (factor : Option UnsignedLiteral) :
    ∀ c ∈ withMinus negative (Monomial.factorChars factor), isUnknown c = false := by
  intro c hc
  cases factor with
  | some l => exact isUnknown_of_readLiteral (readLiteral_withMinus negative l) hc
  | none =>
    cases negative with
    | false => cases hc
    | true =>
      obtain rfl := List.mem_singleton.mp hc
      rfl

theorem coefficient?_withMinus (negative : Bool) (factor : Option UnsignedLiteral) :
    LinearForm.coefficient? (withMinus negative (Monomial.factorChars factor)) =
      some (signed negative (Monomial.factorValue factor)) := by
  cases factor with
  | some l => exact coefficient?_of_readLiteral (readLiteral_withMinus negative l)
  | none => cases negative <;> rfl

theorem withMinus_append (negative : Bool) (cs ds : List Char) :
    withMinus negative (cs ++ ds) = withMinus negative cs ++ ds := by
  cases negative <;> rfl

theorem addTerm_fragment (form : LinearForm) (t : Summand) :
    form.addTerm t.fragment = .ok (addTo form t) := by
  obtain ⟨negative, m⟩ := t
  cases m with
  | constant l => exact addTerm_constant form (readLiteral_withMinus negative l)
  | unknown factor capital =>
    rw [fragment, Monomial.chars, withMinus_append]
    exact addTerm_unknown form (isUnknown_withMinus negative factor)
      (Monomial.isUnknown_letter capital) (coefficient?_withMinus negative factor)

theorem foldlM_addTerm_fragment (form : LinearForm) (ts : List Summand) :
    (ts.map fragment).foldlM addTerm form = .ok (ts.foldl addTo form) := by
  induction ts generalizing form with
  | nil => rfl
  | cons t ts ih =>
    rw [List.map_cons, List.foldlM_cons, addTerm_fragment]
    exact ih (addTo form t)

theorem foldl_addTo (form : LinearForm) (ts : List Summand) :
    ts.foldl addTo form =
      ⟨(ts.filterMap coefficient?).foldl (· + ·) form.a,
        (ts.filterMap constant?).foldl (· + ·) form.b⟩ := by
  induction ts generalizing form with
  | nil => rfl
  | cons t ts ih =>
    rw [List.foldl_cons, ih]
    obtain ⟨negative, m⟩ := t
    cases m <;> rfl

theorem ofText_leftSide (omitPlus : Bool) (ts : List Summand) :
    ofText (leftSide omitPlus ts) = .ok ⟨coefficient ts, constant ts⟩ := by
  rw [ofText, terms_leftSide, foldlM_addTerm_fragment, foldl_addTo]
  rfl

end Sums

end Summand

open Summand

theorem solveEquation_of_leftSide {ts : List Summand} {omitPlus : Bool} {right : List Char}
    {rhs : Float} {text : String} (hright : readLiteral right = some rhs)
    (hspaced : Spaced (leftSide omitPlus ts ++ '=' :: right) text.toList) :
    solveEquation text =
      if (coefficient ts).abs < leastCoefficient then .error .noUniqueSolution
      else .ok ((rhs - constant ts) / coefficient ts) := by
  have hblanks : ∀ c ∈ leftSide omitPlus ts ++ '=' :: right, isBlank c = false := by
    intro c hc
    rcases List.mem_append.mp hc with hc | hc
    · exact isBlank_of_isSumChar (isSumChar_of_mem_leftSide hc)
    · rcases List.mem_cons.mp hc with rfl | hc
      · rfl
      · exact isBlank_of_isSumChar (isSumChar_of_readLiteral hright hc)
  have htext : withoutBlanks text.toList = leftSide omitPlus ts ++ '=' :: right :=
    hspaced.withoutBlanks_eq.trans (withoutBlanks_eq_self hblanks)
  have hequals : '=' ∉ leftSide omitPlus ts :=
    fun hc => ne_equals_of_isSumChar (isSumChar_of_mem_leftSide hc) rfl
  rw [solveEquation_eq_of_cut htext hequals hright, ofText_leftSide]
  rfl

theorem toEquation_of_leftSide (ts : List Summand) (omitPlus : Bool) {right : List Char}
    {rhs : Float} {text : String} (hright : readLiteral right = some rhs)
    (hspaced : Spaced (leftSide omitPlus ts ++ '=' :: right) text.toList) :
    Reply.toEquation text =
      if (coefficient ts).abs < 1e-12 then .refused Fault.noUniqueSolution.message
      else .solved text ((rhs - constant ts) / coefficient ts) := by
  rw [Reply.toEquation, solveEquation_of_leftSide hright hspaced, leastCoefficient]
  split <;> rfl

def thirty : UnsignedLiteral := ⟨['3', 'e', '1'], 30, by decide +kernel, by simp⟩

def four : UnsignedLiteral := ⟨['4'], 4, by decide +kernel, by simp⟩

/-- The sum `-x+3e1X-4`. -/
def threeTerms : List Summand :=
  [⟨true, .unknown none false⟩, ⟨false, .unknown (some thirty) true⟩, ⟨true, .constant four⟩]

theorem toEquation_threeTerms :
    readLiteral "5.4e+1".toList = some 54 ∧
      Spaced (leftSide true threeTerms ++ '=' :: "5.4e+1".toList) "- x+3e1X -4=5.4e+1".toList ∧
      Reply.toEquation "- x+3e1X -4=5.4e+1" = .solved "- x+3e1X -4=5.4e+1" 2 := by
  have hright : readLiteral "5.4e+1".toList = some 54 := by decide +kernel
  have hspaced :
      Spaced (leftSide true threeTerms ++ '=' :: "5.4e+1".toList) "- x+3e1X -4=5.4e+1".toList :=
    .char _ (.blank rfl (.char _ (.char _ (.char _ (.char _ (.char _ (.char _
      (.blank rfl (.refl _)))))))))
  have hreply := toEquation_of_leftSide threeTerms true hright hspaced
  refine ⟨hright, hspaced, hreply.trans ?_⟩
  decide +kernel

end Reckoner
