import Reckoner.Proofs.Lexemes
import Reckoner.Text.Literal.Grammar
import Reckoner.Text.Literal.Lemmas

/-!
# Literals that are read

Exactly the literals of the grammar are taken apart (`isLiteral_iff`), so that every text that is
read as a literal is one (`isLiteral_of_readLiteral`), and the sign in front of a literal is the sign
of its value (`exists_of_readLiteral_minus`).
-/

namespace Reckoner

namespace Literal

variable {cs : List Char}

theorem exists_takeSign_eq (cs : List Char) :
    ∃ sign, IsSign sign ∧ cs = sign ++ (takeSign cs).2 := by
  unfold takeSign
  split
  · exact ⟨['+'], .inr (.inl rfl), rfl⟩
  · exact ⟨['-'], .inr (.inr rfl), rfl⟩
  · exact ⟨[], .inl rfl, rfl⟩

theorem isExponent_of_exponent? {e : Int} (h : exponent? cs = some e) : IsExponent cs := by
  cases cs with
  | nil => exact .absent
  | cons letter cs =>
    by_cases hletter : letter = 'e' ∨ letter = 'E'
    · simp only [exponent?, if_pos hletter] at h
      cases hn : digits? (takeSign cs).2 with
      | none => simp [hn] at h
      | some n =>
        obtain ⟨sign, hsign, hcs⟩ := exists_takeSign_eq cs
        rw [hcs]
        refine .present hletter hsign (fun c hc => isDigit_of_digits? hn hc) fun hnil => ?_
        rw [hnil] at hn
        cases hn
    · simp [exponent?, hletter] at h

theorem isNumeral_of_decimal? {d : Decimal}
    (h : Numeral.decimal? (takeRun true cs).1 = some d) : IsNumeral (takeRun true cs).1 :=
  isNumeral_of_value (fun _ => mem_takeRun) (count_point_takeRun true cs)
    (Numeral.value_of_decimal? h)

theorem isLiteral_of_parse? {l : Literal} (h : parse? cs = some l) : IsLiteral cs := by
  obtain ⟨d, hd, e, he, -⟩ := parse?_eq_some_iff.mp h
  obtain ⟨sign, hsign, hcs⟩ := exists_takeSign_eq cs
  rw [hcs]
  have hmagnitude := IsMagnitude.mk (isNumeral_of_decimal? hd) (isExponent_of_exponent? he)
  rw [takeRun_append] at hmagnitude
  exact .mk hsign hmagnitude

end Literal

theorem isLiteral_of_readLiteral {cs : List Char} {v : Float} (h : readLiteral cs = some v) :
    IsLiteral cs := by
  obtain ⟨l, hl, -⟩ := readLiteral_eq_some_iff.mp h
  exact Literal.isLiteral_of_parse? hl

theorem exists_of_readLiteral_minus {cs : List Char} {v : Float} (hcs : ∀ c ∈ cs, c ≠ '+' ∧ c ≠ '-')
    (h : readLiteral ('-' :: cs) = some v) : ∃ w, readLiteral cs = some w ∧ v = -w := by
  obtain ⟨l, hl, hfinite, rfl⟩ := readLiteral_eq_some_iff.mp h
  have hsign := Literal.takeSign_of_unsigned hcs
  rw [Literal.parse?_minus hsign, Option.map_eq_some_iff] at hl
  obtain ⟨m, hm, rfl⟩ := hl
  refine ⟨m.toFloat, readLiteral_eq_some_iff.mpr ⟨m, hm, hfinite, rfl⟩, ?_⟩
  simp [Literal.toFloat, Literal.negative_of_parse? hsign hm]

/-- Where there is no sign, the literal has none. -/
theorem IsLiteral.isMagnitude {cs : List Char} (h : IsLiteral cs)
    (hcs : ∀ c ∈ cs, c ≠ '+' ∧ c ≠ '-') : IsMagnitude cs := by
  cases h with
  | mk hsign magnitude =>
    rcases hsign with rfl | rfl | rfl
    · exact magnitude
    · exact absurd rfl (hcs '+' (by simp)).1
    · exact absurd rfl (hcs '-' (by simp)).2

/-- A literal begins with a digit or the point, so there is no sign to be taken. -/
theorem IsMagnitude.takeSign_eq {cs : List Char} (h : IsMagnitude cs) :
    Literal.takeSign cs = (false, cs) := by
  obtain ⟨numeral, -⟩ := h
  obtain ⟨d, hd, -⟩ := numeral.digit
  obtain ⟨c, run, rfl⟩ := List.exists_cons_of_ne_nil (List.ne_nil_of_mem hd)
  have hc := numeral.chars c List.mem_cons_self
  have hplus : c ≠ '+' := by
    rintro rfl
    exact absurd hc (by decide)
  have hminus : c ≠ '-' := by
    rintro rfl
    exact absurd hc (by decide)
  simp [Literal.takeSign, hplus, hminus]

theorem IsMagnitude.mem {cs : List Char} (h : IsMagnitude cs) {c : Char} (hc : c ∈ cs) :
    c.isDigit ∨ c ∈ ['.', 'e', 'E', '+', '-'] := by
  obtain ⟨numeral, hexponent⟩ := h
  rcases List.mem_append.mp hc with hc | hc
  · rcases numeral.chars c hc with hd | rfl
    · exact .inl hd
    · simp
  · cases hexponent with
    | absent => cases hc
    | present hletter hsign digits hne =>
      rcases List.mem_append.mp hc with hc | hc
      · rcases List.mem_cons.mp hc with rfl | hc
        · rcases hletter with rfl | rfl <;> simp
        · rcases hsign with rfl | rfl | rfl <;> simp_all
      · exact .inl (digits c hc)

section Converse

open Literal

variable {cs : List Char}

theorem takeSign_of_isDigit (h : ∀ c ∈ cs, c.isDigit) : takeSign cs = (false, cs) :=
  takeSign_of_unsigned fun c hc => ⟨ne_of_isDigit (h c hc) rfl, ne_of_isDigit (h c hc) rfl⟩

/-- The sign that is taken is the one in front, and no other. -/
theorem IsSign.exists_takeSign {sign : List Char} (h : IsSign sign)
    (hcs : takeSign cs = (false, cs)) : ∃ negative, takeSign (sign ++ cs) = (negative, cs) := by
  rcases h with rfl | rfl | rfl
  · exact ⟨false, hcs⟩
  · exact ⟨false, rfl⟩
  · exact ⟨true, rfl⟩

theorem IsExponent.exists_eq (h : IsExponent cs) : ∃ e, exponent? cs = some e := by
  cases h with
  | absent => exact ⟨0, rfl⟩
  | @present letter sign ds hletter hsign digits hne =>
    obtain ⟨negative, htake⟩ := hsign.exists_takeSign (takeSign_of_isDigit digits)
    have hdigits : digits? ds = some (Nat.ofDigitChars 10 ds 0) := by
      rw [digits?, if_pos ⟨hne, List.all_eq_true.mpr digits⟩]
    simp only [List.cons_append, exponent?, if_pos hletter, htake, hdigits]
    exact ⟨_, rfl⟩

/-- The letter of an exponent ends the numeral in front of it. -/
theorem IsExponent.endsRun (h : IsExponent cs) : EndsRun cs := by
  cases h with
  | absent => exact nofun
  | present hletter hsign digits hne =>
    refine EndsRun.cons ?_ _
    rcases hletter with rfl | rfl <;> rfl

theorem IsNumeral.exists_decimal {run : List Char} (h : IsNumeral run) :
    ∃ d, Numeral.decimal? run = some d := by
  obtain ⟨v, hv⟩ := h.exists_value
  unfold Numeral.value at hv
  split at hv
  · exact ⟨_, ‹_›⟩
  · cases hv

theorem isLiteral_iff : IsLiteral cs ↔ ∃ l, parse? cs = some l := by
  constructor
  · rintro ⟨hsign, magnitude⟩
    obtain ⟨negative, htake⟩ := hsign.exists_takeSign magnitude.takeSign_eq
    obtain ⟨numeral, hexponent⟩ := magnitude
    obtain ⟨d, hd⟩ := numeral.exists_decimal
    obtain ⟨e, he⟩ := hexponent.exists_eq
    have hrun := takeRun_append_of_endsRun hexponent.endsRun true
    refine ⟨_, parse?_eq_some_iff.mpr ⟨d, ?_, e, ?_, rfl⟩⟩
    · rw [htake, hrun, numeral.takeRun_eq]
      exact hd
    · rw [htake, hrun, numeral.takeRun_eq]
      exact he
  · rintro ⟨l, hl⟩
    exact isLiteral_of_parse? hl

end Converse

end Reckoner
