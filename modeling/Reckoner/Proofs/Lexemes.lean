import Mathlib.Data.List.TakeWhile
import Reckoner.Grammar
import Reckoner.Rpn.Lexeme

/-!
# Lexemes of the texts of the grammar

Where a text is cut into lexemes depends on what stands right after it only when a run of digits
goes on there. `lexemes_append` says so, and the equations for signs, groups and operators follow.
A numeral of the grammar is one lexeme (`IsNumeral.lexemes_eq`), and a number lexeme that has a
value is a numeral of the grammar (`isNumeral_of_value`).
-/

namespace Reckoner

/-- A run of digits and points that stands before `rest` does not go on in it. -/
def EndsRun (rest : List Char) : Prop :=
  ∀ c ∈ rest.head?, Numeral.isStart c = false

theorem EndsRun.cons {c : Char} (h : Numeral.isStart c = false) (cs : List Char) :
    EndsRun (c :: cs) := by
  intro d hd
  obtain rfl : c = d := by simpa using hd
  exact h

theorem takeRun_append_of_endsRun {rest : List Char} (h : EndsRun rest) (b : Bool)
    (cs : List Char) :
    takeRun b (cs ++ rest) = ((takeRun b cs).1, (takeRun b cs).2 ++ rest) := by
  induction cs generalizing b with
  | nil =>
    cases rest with
    | nil => rfl
    | cons c rest =>
      have hc : Numeral.isStart c = false := h c rfl
      simp only [Numeral.isStart, Bool.or_eq_false_iff, decide_eq_false_iff_not] at hc
      simp [takeRun, hc.1, hc.2]
  | cons c cs ih =>
    simp only [List.cons_append, takeRun]
    by_cases hd : c.isDigit
    · simp [hd, ih]
    by_cases hp : c = '.' ∧ b
    · simp [hp, ih]
    · simp [hd, hp]

theorem lexemes_cons {c : Char} (h : Numeral.isStart c = false) (cs : List Char) :
    lexemes (c :: cs) = .ofChar c :: lexemes cs := by
  rw [lexemes, dif_neg (by simp [h])]

theorem lexemes_cons_of_isStart {c : Char} (h : Numeral.isStart c = true) (cs : List Char) :
    lexemes (c :: cs) =
      .number (takeRun true (c :: cs)).1 :: lexemes (takeRun true (c :: cs)).2 := by
  rw [lexemes, dif_pos h]

theorem lexemes_append {rest : List Char} (h : EndsRun rest) (cs : List Char) :
    lexemes (cs ++ rest) = lexemes cs ++ lexemes rest := by
  fun_induction lexemes cs with
  | case1 => rfl
  | case2 c cs hc ih =>
    have hrun := takeRun_append_of_endsRun h true (c :: cs)
    rw [List.cons_append] at hrun
    rw [List.cons_append, lexemes_cons_of_isStart hc, hrun, ih]
    rfl
  | case3 c cs hc ih =>
    rw [List.cons_append, lexemes_cons (by simpa using hc), ih]
    rfl

@[simp]
theorem isStart_symbol (op : BinaryOp) : Numeral.isStart op.symbol = false := by
  cases op <;> rfl

@[simp]
theorem ofChar_symbol (op : BinaryOp) : Lexeme.ofChar op.symbol = .operator op := by
  cases op <;> rfl

theorem lexemes_operator (cs ds : List Char) (op : BinaryOp) :
    lexemes (cs ++ op.symbol :: ds) = lexemes cs ++ .operator op :: lexemes ds := by
  rw [lexemes_append (EndsRun.cons (isStart_symbol op) ds), lexemes_cons (isStart_symbol op),
    ofChar_symbol]

theorem lexemes_sign (cs : List Char) : lexemes ('-' :: cs) = .operator .sub :: lexemes cs := by
  rw [lexemes_cons rfl]
  rfl

theorem lexemes_group (cs : List Char) :
    lexemes ('(' :: cs ++ [')']) = .opening :: lexemes cs ++ [.closing] := by
  have hends : EndsRun [')'] := EndsRun.cons rfl []
  have hclosing : lexemes [')'] = [.closing] := by
    rw [lexemes_cons rfl, lexemes]
    rfl
  rw [List.cons_append, lexemes_cons rfl, lexemes_append hends, hclosing]
  rfl

namespace Numeral

theorem eq_whole_or_append (run : List Char) :
    run = whole run ∧ fraction run = [] ∨ run = whole run ++ '.' :: fraction run := by
  have hsplit : whole run ++ run.dropWhile (· ≠ '.') = run := List.takeWhile_append_dropWhile
  cases hrest : run.dropWhile (· ≠ '.') with
  | nil =>
    refine .inl ⟨?_, ?_⟩
    · rw [hrest, List.append_nil] at hsplit
      exact hsplit.symm
    · rw [fraction, hrest, List.drop_nil]
  | cons c cs =>
    have hc : ¬ (c ≠ '.') := by
      have := List.head?_dropWhile_not (· ≠ '.') run
      rw [hrest] at this
      simpa using this
    obtain rfl : c = '.' := Decidable.of_not_not hc
    refine .inr ?_
    rw [hrest] at hsplit
    simp only [fraction, hrest, List.drop_succ_cons, List.drop_zero]
    exact hsplit.symm

theorem exists_value_iff {run : List Char} :
    (∃ v, value run = .ok v) ↔ whole run ++ fraction run ≠ [] := by
  unfold value decimal?
  cases h : whole run ++ fraction run with
  | nil => simp
  | cons c cs => simp

end Numeral

namespace IsNumeral

variable {run : List Char}

theorem takeRun_eq (h : IsNumeral run) : takeRun true run = (run, []) :=
  takeRun_eq_self h.chars (by simpa using h.point)

theorem ne_nil (h : IsNumeral run) : run ≠ [] := by
  rintro rfl
  obtain ⟨c, hc, -⟩ := h.digit
  cases hc

theorem lexemes_eq (h : IsNumeral run) : lexemes run = [.number run] := by
  have htake := h.takeRun_eq
  cases run with
  | nil => exact absurd rfl h.ne_nil
  | cons c cs =>
    have hstart : Numeral.isStart c = true := by
      simpa [Numeral.isStart] using h.chars c (by simp)
    rw [lexemes_cons_of_isStart hstart, htake, lexemes]

/-- Every numeral is read. -/
theorem exists_value (h : IsNumeral run) : ∃ v, Numeral.value run = .ok v := by
  refine Numeral.exists_value_iff.mpr fun hnil => ?_
  obtain ⟨c, hc, hd⟩ := h.digit
  obtain ⟨hwhole, hfraction⟩ := List.append_eq_nil_iff.mp hnil
  rcases Numeral.eq_whole_or_append run with ⟨heq, -⟩ | heq
  · rw [heq, hwhole] at hc
    cases hc
  · rw [heq, hwhole, hfraction] at hc
    obtain rfl : c = '.' := by simpa using hc
    exact ne_of_isDigit hd rfl rfl

end IsNumeral

theorem isNumeral_of_isDigit {c : Char} (h : c.isDigit = true) : IsNumeral [c] where
  chars := by simp [h]
  point := List.count_le_length
  digit := ⟨c, by simp, h⟩

/-- A run with a value has a digit. -/
theorem isNumeral_of_value {run : List Char} {v : Float} (hchars : ∀ c ∈ run, c.isDigit ∨ c = '.')
    (hpoint : run.count '.' ≤ 1) (h : Numeral.value run = .ok v) : IsNumeral run := by
  refine ⟨hchars, hpoint, ?_⟩
  obtain ⟨c, hc⟩ := List.exists_mem_of_ne_nil _ (Numeral.exists_value_iff.mp ⟨v, h⟩)
  rcases Numeral.eq_whole_or_append run with ⟨heq, hnil⟩ | heq
  · rw [hnil, List.append_nil, ← heq] at hc
    refine ⟨c, hc, (hchars c hc).resolve_right ?_⟩
    rintro rfl
    rw [heq] at hc
    simpa using List.mem_takeWhile_imp hc
  · have hmem : c ∈ run := by
      rw [heq]
      rcases List.mem_append.mp hc with hc | hc
      · exact List.mem_append_left _ hc
      · exact List.mem_append_right _ (List.mem_cons_of_mem _ hc)
    refine ⟨c, hmem, (hchars c hmem).resolve_right ?_⟩
    rintro rfl
    have hpos := List.count_pos_iff.mpr hc
    rw [heq, List.count_append, List.count_cons_self] at hpoint
    rw [List.count_append] at hpos
    omega

theorem ofChar_ne_number (c : Char) (run : List Char) : Lexeme.ofChar c ≠ .number run := by
  intro h
  unfold Lexeme.ofChar at h
  split at h
  · cases h
  · split at h
    · cases h
    · split at h <;> cases h

theorem isRun_of_mem_lexemes {cs run : List Char} (h : .number run ∈ lexemes cs) :
    (∀ c ∈ run, c.isDigit ∨ c = '.') ∧ run.count '.' ≤ 1 := by
  fun_induction lexemes cs with
  | case1 => cases h
  | case2 c cs hc ih =>
    rcases List.mem_cons.mp h with heq | h
    · obtain rfl := Lexeme.number.inj heq
      exact ⟨fun _ => mem_takeRun, count_point_takeRun true (c :: cs)⟩
    · exact ih h
  | case3 c cs hc ih =>
    rcases List.mem_cons.mp h with heq | h
    · exact absurd heq.symm (ofChar_ne_number c run)
    · exact ih h

end Reckoner
