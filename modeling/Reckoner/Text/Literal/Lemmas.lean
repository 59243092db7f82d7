import Reckoner.Text.Literal

/-!
# Signs and characters of literals

A literal has no other characters than digits, the point, the letter of the exponent and signs
(`mem_of_readLiteral`), and a minus in front of a literal without a sign in front gives the negative
number (`readLiteral_minus_of_takeSign`).
-/

namespace Reckoner

namespace Literal

variable {cs ds : List Char} {c : Char}

theorem takeSign_of_unsigned (h : ∀ c ∈ cs, c ≠ '+' ∧ c ≠ '-') : takeSign cs = (false, cs) := by
  unfold takeSign
  split
  · exact absurd rfl (h '+' (by simp)).1
  · exact absurd rfl (h '-' (by simp)).2
  · rfl

theorem mem_of_takeSign (h : c ∈ cs) : c ∈ (takeSign cs).2 ∨ c = '+' ∨ c = '-' := by
  unfold takeSign
  split
  · rcases List.mem_cons.mp h with rfl | h
    · exact .inr (.inl rfl)
    · exact .inl h
  · rcases List.mem_cons.mp h with rfl | h
    · exact .inr (.inr rfl)
    · exact .inl h
  · exact .inl h

theorem isDigit_of_digits? {n : Nat} (h : digits? ds = some n) (hc : c ∈ ds) : c.isDigit = true := by
  unfold digits? at h
  split at h
  · rename_i hds
    exact List.all_eq_true.mp hds.2 c hc
  · cases h

theorem mem_of_exponent? {e : Int} (h : exponent? cs = some e) (hc : c ∈ cs) :
    c.isDigit ∨ c ∈ ['e', 'E', '+', '-'] := by
  cases cs with
  | nil => cases hc
  | cons d cs =>
    by_cases hletter : d = 'e' ∨ d = 'E'
    · simp only [exponent?, if_pos hletter] at h
      cases hn : digits? (takeSign cs).2 with
      | none => simp [hn] at h
      | some n =>
        rcases List.mem_cons.mp hc with rfl | hc
        · rcases hletter with rfl | rfl <;> simp
        · rcases mem_of_takeSign hc with hc | rfl | rfl
          · exact .inl (isDigit_of_digits? hn hc)
          · simp
          · simp
    · simp [exponent?, hletter] at h

theorem parse?_eq_some_iff {l : Literal} :
    parse? cs = some l ↔ ∃ d, Numeral.decimal? (takeRun true (takeSign cs).2).1 = some d ∧
      ∃ e, exponent? (takeRun true (takeSign cs).2).2 = some e ∧
        ⟨(takeSign cs).1, d.digits, d.exponent + e⟩ = l := by
  simp [parse?, Option.bind_eq_some_iff]

theorem mem_of_parse? {l : Literal} (h : parse? cs = some l) (hc : c ∈ cs) :
    c.isDigit ∨ c ∈ ['.', 'e', 'E', '+', '-'] := by
  obtain ⟨d, -, e, he, -⟩ := parse?_eq_some_iff.mp h
  rcases mem_of_takeSign hc with hc | rfl | rfl
  · rw [← takeRun_append true (takeSign cs).2] at hc
    rcases List.mem_append.mp hc with hc | hc
    · rcases mem_takeRun hc with hd | rfl
      · exact .inl hd
      · simp
    · rcases mem_of_exponent? he hc with hd | hc
      · exact .inl hd
      · exact .inr (List.mem_cons_of_mem _ hc)
  · simp
  · simp

theorem parse?_minus (h : takeSign cs = (false, cs)) :
    parse? ('-' :: cs) = (parse? cs).map fun l => { l with negative := true } := by
  have hsign : takeSign ('-' :: cs) = (true, cs) := rfl
  simp only [parse?, hsign, h]
  cases Numeral.decimal? (takeRun true cs).1 with
  | none => rfl
  | some d =>
    cases exponent? (takeRun true cs).2 with
    | none => rfl
    | some e => rfl

theorem negative_of_parse? {l : Literal} (h : takeSign cs = (false, cs))
    (hl : parse? cs = some l) : l.negative = false := by
  obtain ⟨d, -, e, -, rfl⟩ := parse?_eq_some_iff.mp hl
  rw [h]

end Literal

variable {cs : List Char} {v : Float}

theorem readLiteral_eq_some_iff :
    readLiteral cs = some v ↔ ∃ l, Literal.parse? cs = some l ∧ l.Finite ∧ l.toFloat = v := by
  unfold readLiteral
  cases Literal.parse? cs with
  | none => simp
  | some l =>
    by_cases h : l.Finite <;> simp [h]

theorem mem_of_readLiteral (h : readLiteral cs = some v) {c : Char} (hc : c ∈ cs) :
    c.isDigit ∨ c ∈ ['.', 'e', 'E', '+', '-'] := by
  obtain ⟨l, hl, -⟩ := readLiteral_eq_some_iff.mp h
  exact Literal.mem_of_parse? hl hc

theorem readLiteral_minus_of_takeSign (h : readLiteral cs = some v)
    (hcs : Literal.takeSign cs = (false, cs)) : readLiteral ('-' :: cs) = some (-v) := by
  obtain ⟨l, hl, hfinite, rfl⟩ := readLiteral_eq_some_iff.mp h
  refine readLiteral_eq_some_iff.mpr ⟨{ l with negative := true }, ?_, hfinite, ?_⟩
  · rw [Literal.parse?_minus hcs, hl]
    rfl
  · simp [Literal.toFloat, Literal.negative_of_parse? hcs hl]

theorem readLiteral_minus (h : readLiteral cs = some v) (hcs : ∀ c ∈ cs, c ≠ '+' ∧ c ≠ '-') :
    readLiteral ('-' :: cs) = some (-v) :=
  readLiteral_minus_of_takeSign h (Literal.takeSign_of_unsigned hcs)

end Reckoner
