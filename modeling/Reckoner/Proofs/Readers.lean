import Reckoner.Number.Grid.Neutral
import Reckoner.Proofs.Compilation
import Reckoner.Proofs.Reading
import Reckoner.Proofs.Solution

/-!
# Both readers of numbers agree

An expression has the longest numeral taken off its front, an equation has its literals read as a
whole. On a text with no sign and no letter of an exponent a literal is a numeral
(`IsPlain.isNumeral`), and a numeral is read as the same double both ways, unless this is infinite
(`IsNumeral.readLiteral_eq`). So the sign of a literal is a negation of what an expression reads,
and an equation with the unknown alone is solved by what an expression is evaluated to.
-/

namespace Reckoner

open Binary64

/-- No sign and no letter of an exponent. Texts of digits and points are plain
(`isPlain_of_isDigit_or_point`). -/
def IsPlain (cs : List Char) : Prop :=
  ∀ c ∈ cs, c ∉ ['+', '-', 'e', 'E']

/-! ### Numerals -/

section Numerals

variable {cs : List Char} {d : Decimal} {v : Float}

theorem isPlain_of_isDigit_or_point (h : ∀ c ∈ cs, c.isDigit ∨ c = '.') : IsPlain cs := by
  intro c hc hother
  simp only [List.mem_cons, List.not_mem_nil, or_false] at hother
  rcases h c hc with hd | rfl
  · rcases hother with rfl | rfl | rfl | rfl <;> cases hd
  · simp at hother

theorem IsPlain.unsigned (h : IsPlain cs) : ∀ c ∈ cs, c ≠ '+' ∧ c ≠ '-' := by
  intro c hc
  have hother := h c hc
  simp only [List.mem_cons, not_or] at hother
  exact ⟨hother.1, hother.2.1⟩

/-- Without a letter there is no exponent, and without a sign there is only the numeral. -/
theorem IsPlain.isNumeral (h : IsPlain cs) (hcs : IsLiteral cs) : IsNumeral cs := by
  obtain ⟨numeral, hexponent⟩ := hcs.isMagnitude h.unsigned
  cases hexponent with
  | absent => rwa [List.append_nil]
  | @present letter sign ds hletter hsign digits hne =>
    have hmem := h letter (List.mem_append_right _ List.mem_cons_self)
    rcases hletter with rfl | rfl <;> simp at hmem

/-- A text is read to its end exactly where all of it is a numeral. -/
theorem Numeral.read_eq_ok_nil_iff :
    read cs = .ok (v, []) ↔ IsNumeral cs ∧ value cs = .ok v := by
  constructor
  · intro h
    obtain ⟨w, hw, h⟩ := bind_eq_ok.mp h
    obtain ⟨rfl, hrest⟩ := Prod.mk.inj (Except.ok.inj h)
    have hrun := takeRun_append true cs
    rw [hrest, List.append_nil] at hrun
    have hnumeral := isNumeral_of_value (fun _ => mem_takeRun) (count_point_takeRun true cs) hw
    rw [hrun] at hnumeral hw
    exact ⟨hnumeral, hw⟩
  · rintro ⟨hnumeral, hv⟩
    rw [read, hnumeral.takeRun_eq]
    show (value cs >>= _) = _
    rw [hv]
    rfl

theorem IsNumeral.parse?_eq (h : IsNumeral cs) (hd : Numeral.decimal? cs = some d) :
    Literal.parse? cs = some ⟨false, d⟩ := by
  have htake := (IsMagnitude.mk h .absent).takeSign_eq
  rw [List.append_nil] at htake
  refine Literal.parse?_eq_some_iff.mpr ⟨d, ?_, 0, ?_, ?_⟩
  · rw [htake, h.takeRun_eq]
    exact hd
  · rw [htake, h.takeRun_eq]
    rfl
  · rw [htake, Int.add_zero]

theorem IsNumeral.readLiteral_eq (h : IsNumeral cs) (hd : Numeral.decimal? cs = some d) :
    readLiteral cs = if IsFinite d.toFloat then some d.toFloat else none := by
  simp only [readLiteral, h.parse?_eq hd, Literal.finite_iff]
  rfl

theorem Decimal.isFinite_toFloat_iff (d : Decimal) :
    IsFinite d.toFloat ↔ d.value < 2 ^ 1024 - 2 ^ 970 :=
  (Literal.rounds_toFloat ⟨false, d⟩).isFinite_iff

theorem Decimal.toFloat_of_not_isFinite (h : ¬ IsFinite d.toFloat) : d.toFloat = infinity := by
  have hindex : ¬ d.index < infinityIndex := mt (Literal.finite_iff (l := ⟨false, d⟩)).mp h
  rw [toFloat, infinity, floatOfIndex, floatOfIndex, Nat.min_eq_right (Nat.le_of_not_lt hindex),
    Nat.min_self]

theorem readLiteral_iff_read (h : IsPlain cs) :
    readLiteral cs = some v ↔ Numeral.read cs = .ok (v, []) ∧ IsFinite v := by
  rw [Numeral.read_eq_ok_nil_iff]
  constructor
  · intro hv
    have hnumeral := h.isNumeral (isLiteral_of_readLiteral hv)
    obtain ⟨d, hd⟩ := hnumeral.exists_decimal
    rw [hnumeral.readLiteral_eq hd] at hv
    split at hv
    · cases hv
      exact ⟨⟨hnumeral, Numeral.value_of_decimal? hd⟩, ‹_›⟩
    · cases hv
  · rintro ⟨⟨hnumeral, hv⟩, hfinite⟩
    obtain ⟨d, hd⟩ := hnumeral.exists_decimal
    rw [Numeral.value_of_decimal? hd] at hv
    cases hv
    rw [hnumeral.readLiteral_eq hd, if_pos hfinite]

/-- A numeral that is no literal is too great for a double, and read as the infinity. -/
theorem read_and_readLiteral_none_iff :
    Numeral.read cs = .ok (v, []) ∧ readLiteral cs = none ↔
      v = infinity ∧ ∃ q, SpellsNumeral cs q ∧ 2 ^ 1024 - 2 ^ 970 ≤ q := by
  rw [Numeral.read_eq_ok_nil_iff]
  constructor
  · rintro ⟨⟨hnumeral, hv⟩, hnone⟩
    obtain ⟨d, hd⟩ := hnumeral.exists_decimal
    rw [Numeral.value_of_decimal? hd] at hv
    cases hv
    rw [hnumeral.readLiteral_eq hd] at hnone
    split at hnone
    · cases hnone
    · rename_i hfinite
      have hgreat := le_of_not_gt (mt d.isFinite_toFloat_iff.mpr hfinite)
      exact ⟨Decimal.toFloat_of_not_isFinite hfinite, d.value, hnumeral.spellsNumeral hd, hgreat⟩
  · rintro ⟨rfl, q, hspells, hgreat⟩
    obtain ⟨d, hd, rfl⟩ := hspells.exists_decimal
    have hfinite : ¬ IsFinite d.toFloat := fun h =>
      absurd hgreat (not_le_of_gt (d.isFinite_toFloat_iff.mp h))
    rw [hspells.isNumeral.readLiteral_eq hd, if_neg hfinite, Numeral.value_of_decimal? hd,
      Decimal.toFloat_of_not_isFinite hfinite]
    exact ⟨⟨hspells.isNumeral, rfl⟩, rfl⟩

end Numerals

/-! ### Whole texts -/

section Texts

variable {cs : List Char} {v : Float}

theorem spaced_ofList (cs : List Char) : Spaced cs (String.ofList cs).toList := by
  rw [String.toList_ofList]
  exact Spaced.refl cs

theorem toExpression_of_value (hcs : IsNumeral cs) (hv : Numeral.value cs = .ok v) :
    Reply.toExpression (String.ofList cs) = .evaluated (String.ofList cs) [] v := by
  rw [Reply.toExpression, (Derives.number hcs hv).calculate_eq (spaced_ofList cs)]
  rfl

/-- A minus in front of a numeral is an operator. -/
theorem toExpression_minus_of_value (hcs : IsNumeral cs) (hv : Numeral.value cs = .ok v) :
    toRpn ('-' :: cs) = .ok [.number v, .operator .neg] ∧
      Reply.toExpression (String.ofList ('-' :: cs)) =
        .evaluated (String.ofList ('-' :: cs)) [(Step.negation v).text] (-v) := by
  have hderives := (Derives.number hcs hv).neg
  refine ⟨hderives.toRpn_eq, ?_⟩
  rw [Reply.toExpression, hderives.calculate_eq (spaced_ofList _)]
  rfl

/-- The unknown alone is equal to the right side as it is read. -/
theorem toEquation_of_readLiteral (h : readLiteral cs = some v) (hv : IsFinite v) :
    Reply.toEquation (String.ofList ('x' :: '=' :: cs)) =
      .solved (String.ofList ('x' :: '=' :: cs)) v := by
  obtain ⟨negative, n, hfloat⟩ := exists_ofFloat hv
  have hspaced : Spaced (Summand.leftSide true [⟨false, .unknown none false⟩] ++ '=' :: cs)
      (String.ofList ('x' :: '=' :: cs)).toList := spaced_ofList _
  have hcoefficient : Summand.coefficient [⟨false, .unknown none false⟩] = 1 := by decide
  have hconstant : Summand.constant [⟨false, .unknown none false⟩] = 0 := rfl
  have hlarge : ¬ Float.abs 1 < leastCoefficient := by decide
  rw [Reply.toEquation, solveEquation_of_leftSide h hspaced, hcoefficient, hconstant,
    if_neg hlarge, sub_zero_of_ofFloat hfloat, div_one_of_ofFloat hfloat]
  rfl

/-- On a text with no sign and no letter of an exponent, a literal is read exactly where the numeral
at the front is the whole text and its double is finite, and both are read as the same. Then the
literal with a minus in front is read as the negation, which an expression comes to with the
operator for it; and an expression with this text, and an equation with the unknown on one side and
this text on the other, both have this double as their result. Only where the number is too great
for a double is a numeral no literal, and there it is the infinity. -/
theorem readers_agree (hcs : IsPlain cs) :
    (∀ v, readLiteral cs = some v ↔ Numeral.read cs = .ok (v, []) ∧ IsFinite v) ∧
    (∀ v, readLiteral cs = some v →
      readLiteral ('-' :: cs) = some (-v) ∧
      toRpn ('-' :: cs) = .ok [.number v, .operator .neg] ∧
      Reply.toExpression (String.ofList ('-' :: cs)) =
        .evaluated (String.ofList ('-' :: cs)) [(Step.negation v).text] (-v) ∧
      Reply.toExpression (String.ofList cs) = .evaluated (String.ofList cs) [] v ∧
      Reply.toEquation (String.ofList ('x' :: '=' :: cs)) =
        .solved (String.ofList ('x' :: '=' :: cs)) v) ∧
    ∀ v, Numeral.read cs = .ok (v, []) ∧ readLiteral cs = none ↔
      v = infinity ∧ ∃ q, SpellsNumeral cs q ∧ 2 ^ 1024 - 2 ^ 970 ≤ q := by
  refine ⟨fun v => readLiteral_iff_read hcs, ?_, fun v => read_and_readLiteral_none_iff⟩
  intro v h
  obtain ⟨hread, hfinite⟩ := (readLiteral_iff_read hcs).mp h
  obtain ⟨hnumeral, hvalue⟩ := Numeral.read_eq_ok_nil_iff.mp hread
  obtain ⟨htokens, hminus⟩ := toExpression_minus_of_value hnumeral hvalue
  exact ⟨readLiteral_minus h hcs.unsigned, htokens, hminus, toExpression_of_value hnumeral hvalue,
    toEquation_of_readLiteral h hfinite⟩

theorem readers_agree_half :
    IsPlain "2.5".toList ∧ readLiteral "2.5".toList = some 2.5 ∧
      Numeral.read "2.5".toList = .ok (2.5, []) ∧
      readLiteral "-2.5".toList = some (-2.5) ∧
      Reply.toExpression "-2.5" = .evaluated "-2.5" ["negate(2.5) = -2.5"] (-2.5) ∧
      Reply.toEquation "x=2.5" = .solved "x=2.5" 2.5 := by
  have hplain : IsPlain "2.5".toList :=
    isPlain_of_isDigit_or_point (by simp [Char.isDigit])
  have hread : readLiteral "2.5".toList = some 2.5 := by decide +kernel
  have htext : (Step.negation 2.5).text = "negate(2.5) = -2.5" := by decide +kernel
  obtain ⟨hiff, hvalues, -⟩ := readers_agree hplain
  obtain ⟨hminus, -, hnegated, -, hsolved⟩ := hvalues 2.5 hread
  rw [htext] at hnegated
  exact ⟨hplain, hread, ((hiff 2.5).mp hread).1, hminus, hnegated, hsolved⟩

end Texts

end Reckoner
