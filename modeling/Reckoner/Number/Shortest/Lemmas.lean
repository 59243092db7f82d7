import Reckoner.Number.Grid.Lemmas
import Reckoner.Number.Shortest.Basic

/-!
# The shortest decimal is read back

`index_shortest`: the double nearest to the shortest decimal of a finite, positive double is this
double. Every decimal in the rounding interval of a double is read as the double
(`index_eq_of_contains`), and the search never leaves the interval (`contains_search`).
-/

namespace Reckoner

open Binary64

namespace RoundingInterval

theorem unit_pos : 0 < unit := by decide +kernel

theorem contains_middle {n : Nat} (h : 0 < n) : (around n).Contains (around n).middle := by
  have h₁ : gridPoint (n - 1) < gridPoint n := gridPoint_strictMono (by omega)
  have h₂ : gridPoint n < gridPoint (n + 1) := gridPoint_lt_succ n
  have h₃ := Nat.mul_lt_mul_of_pos_right h₁ unit_pos
  have h₄ := Nat.mul_lt_mul_of_pos_right h₂ unit_pos
  simp only [Contains, around, Nat.add_mul]
  split <;> omega

variable {i : RoundingInterval} {tie : Tie}

theorem contains_of_multiple? {step m : Nat} (h : i.multiple? tie step = some m) :
    i.Contains (m * step) := by
  simp only [multiple?] at h
  split at h
  · split at h
    · cases h
      rename_i hup
      exact hup.1
    · cases h
      assumption
  · split at h
    · cases h
      assumption
    · cases h

/-- What is found is in the interval, if the double itself is. -/
theorem contains_search (h : i.Contains i.middle) (j : Nat) :
    ∃ k : Nat, (i.search tie j).exponent = (k : Int) - 1074 ∧
      i.Contains ((i.search tie j).digits * Nat.pow 10 k) := by
  induction j with
  | zero => exact ⟨0, rfl, by simpa [search] using h⟩
  | succ j ih =>
    rw [search]
    split
    · exact ⟨j + 1, rfl, contains_of_multiple? ‹_›⟩
    · exact ih

theorem Contains.bounds {n value : Nat} (h : (around n).Contains value) :
    (gridPoint (n - 1) + gridPoint n) * unit ≤ 2 * value ∧
      2 * value ≤ (gridPoint n + gridPoint (n + 1)) * unit ∧
      (n % 2 = 0 ∨ (gridPoint (n - 1) + gridPoint n) * unit < 2 * value ∧
        2 * value < (gridPoint n + gridPoint (n + 1)) * unit) := by
  by_cases heven : n % 2 = 0
  · simp only [Contains, around, heven, decide_true, if_true] at h
    exact ⟨h.1, h.2, .inl heven⟩
  · simp only [Contains, around, heven, decide_false, Bool.false_eq_true, if_false] at h
    exact ⟨Nat.le_of_lt h.1, Nat.le_of_lt h.2, .inr h⟩

/-- A fraction of units `2⁻¹⁰⁷⁴` that is in the interval, when counted in units `10⁻¹⁰⁷⁴`, rounds to
the double. -/
theorem Contains.nearestIndex_eq {n value num den : Nat} (h : (around n).Contains value)
    (hden : 0 < den) (hscale : value * den = num * unit) : nearestIndex num den = n := by
  obtain ⟨hlow, hhigh, heven⟩ := h.bounds
  have hle (x : Nat) : x * unit ≤ 2 * value ↔ x * den ≤ 2 * num := by
    rw [← Nat.mul_le_mul_right_iff hden, Nat.mul_assoc 2, hscale, Nat.mul_right_comm,
      ← Nat.mul_assoc, Nat.mul_le_mul_right_iff unit_pos]
  have hge (x : Nat) : 2 * value ≤ x * unit ↔ 2 * num ≤ x * den := by
    rw [← Nat.mul_le_mul_right_iff hden, Nat.mul_assoc 2, hscale, Nat.mul_right_comm x,
      ← Nat.mul_assoc, Nat.mul_le_mul_right_iff unit_pos]
  refine Binary64.nearestIndex_eq hden ((hle _).mp hlow) ((hge _).mp hhigh) ?_
  rcases heven with heven | ⟨hlt, hgt⟩
  · exact .inl heven
  · exact .inr ⟨Nat.lt_of_not_le fun h => Nat.not_le_of_lt hlt ((hge _).mpr h),
      Nat.lt_of_not_le fun h => Nat.not_le_of_lt hgt ((hle _).mpr h)⟩

theorem Contains.unit_le {n value : Nat} (hn : 0 < n) (h : (around n).Contains value) :
    unit ≤ 2 * value := by
  have hpos : 0 < gridPoint n := gridPoint_zero ▸ gridPoint_strictMono hn
  refine Nat.le_trans ?_ h.bounds.1
  exact Nat.le_mul_of_pos_left _ (Nat.add_pos_right _ hpos)

end RoundingInterval

namespace Decimal

open RoundingInterval

theorem ten_pow_eq {k t : Nat} (h : k + t = 1074) :
    Nat.pow 10 k * Nat.pow 10 t = one * unit := by
  refine (Nat.pow_add 10 k t).symm.trans ?_
  rw [h]
  decide +kernel

variable {d : Decimal} {n k : Nat}

/-- A decimal in a rounding interval is large enough not to be taken for zero. -/
theorem not_vanishes_of_contains (hn : 0 < n) (he : d.exponent = (k : Int) - 1074)
    (h : (around n).Contains (d.digits * Nat.pow 10 k)) : ¬ d.Vanishes := by
  have hunit := h.unit_le hn
  rintro (hzero | hsmall)
  · rw [hzero, Nat.zero_mul, Nat.mul_zero] at hunit
    exact absurd unit_pos (Nat.not_lt_of_le hunit)
  · obtain ⟨t, ht⟩ : ∃ t, k + t = 1074 := ⟨1074 - k, by omega⟩
    have hscaled : 10 ^ t ≤ 2 * d.digits * one := by
      rw [← Nat.mul_le_mul_right_iff unit_pos, Nat.mul_assoc _ one, ← ten_pow_eq ht,
        Nat.mul_comm (10 ^ t), ← Nat.mul_assoc, Nat.mul_assoc 2]
      exact Nat.mul_le_mul_right _ hunit
    exact absurd (two_mul_mul_one_lt (by omega)) (Nat.not_lt_of_le hscaled)

/-- A decimal in the rounding interval of a finite double is small enough not to be taken for
infinite. -/
theorem not_overflows_of_contains (hn : 0 < n) (hfin : n < infinityIndex)
    (he : d.exponent = (k : Int) - 1074) (h : (around n).Contains (d.digits * Nat.pow 10 k)) :
    ¬ d.Overflows := by
  intro hlarge
  obtain ⟨m, hm, hk⟩ : ∃ m, m = 1383 ∧ m ≤ k := by
    rw [Overflows] at hlarge
    exact ⟨1383, rfl, by omega⟩
  have hdigits : 0 < d.digits := by
    refine Nat.pos_of_ne_zero fun hzero => ?_
    exact not_vanishes_of_contains hn he h (.inl hzero)
  have hpow : 10 ^ m ≤ d.digits * 10 ^ k :=
    Nat.le_trans (Nat.pow_le_pow_right (by decide) hk) (Nat.le_mul_of_pos_left _ hdigits)
  have hgrid : gridPoint n + gridPoint (n + 1) ≤ 2 * gridPoint infinityIndex := by
    have h₁ := gridPoint_mono (Nat.le_of_lt hfin)
    have h₂ := gridPoint_mono (Nat.succ_le_of_lt hfin)
    rw [Nat.two_mul]
    exact Nat.add_le_add h₁ h₂
  have hbound : 2 * gridPoint infinityIndex * unit < 2 * 10 ^ m := by
    subst hm
    decide +kernel
  have := Nat.le_trans h.bounds.2.1 (Nat.mul_le_mul_right _ hgrid)
  exact absurd (Nat.lt_of_le_of_lt this hbound)
    (Nat.not_lt_of_le (Nat.mul_le_mul_left 2 hpow))

theorem index_eq_of_contains (hn : 0 < n) (hfin : n < infinityIndex)
    (he : d.exponent = (k : Int) - 1074) (h : (around n).Contains (d.digits * Nat.pow 10 k)) :
    d.index = n := by
  rw [index, if_neg (not_vanishes_of_contains hn he h),
    if_neg (not_overflows_of_contains hn hfin he h)]
  split
  · rename_i e hexp
    obtain ⟨m, rfl, hm⟩ : ∃ m, k = e + m ∧ 0 + m = 1074 := by
      rw [Int.ofNat_eq_natCast] at hexp
      exact ⟨k - e, by omega, by omega⟩
    refine h.nearestIndex_eq Nat.one_pos ?_
    have hsplit : Nat.pow 10 (e + m) = Nat.pow 10 e * Nat.pow 10 m := Nat.pow_add 10 e m
    have hunits : Nat.pow 10 m = one * unit := (Nat.one_mul _).symm.trans (ten_pow_eq hm)
    rw [Nat.mul_one, hsplit, hunits, Nat.mul_assoc _ one, Nat.mul_assoc]
  · rename_i e hexp
    have hk : k + (e + 1) = 1074 := by
      rw [hexp] at he
      omega
    refine h.nearestIndex_eq (Nat.pow_pos (by decide)) ?_
    rw [Nat.mul_assoc, ten_pow_eq hk, Nat.mul_assoc]

end Decimal

/-- The shortest decimal is a whole number of units `10⁻¹⁰⁷⁴` in the rounding interval. -/
theorem contains_shortest (tie : Tie) {n : Nat} (hn : 0 < n) :
    ∃ k : Nat, (shortest tie n).exponent = (k : Int) - 1074 ∧
      (RoundingInterval.around n).Contains ((shortest tie n).digits * Nat.pow 10 k) :=
  RoundingInterval.contains_search (RoundingInterval.contains_middle hn)
    (RoundingInterval.around n).leadingPower

theorem digits_shortest_pos (tie : Tie) {n : Nat} (hn : 0 < n) : 0 < (shortest tie n).digits := by
  obtain ⟨k, he, h⟩ := contains_shortest tie hn
  refine Nat.pos_of_ne_zero fun hzero => ?_
  exact Decimal.not_vanishes_of_contains hn he h (.inl hzero)

/-- The shortest decimal is read as the double it was made for. -/
theorem index_shortest (tie : Tie) {n : Nat} (hn : 0 < n) (hfin : n < infinityIndex) :
    (shortest tie n).index = n := by
  obtain ⟨k, he, h⟩ := contains_shortest tie hn
  exact Decimal.index_eq_of_contains hn hfin he h

/-- So is the shortest decimal of a large double with its zeros, and one more behind the point. -/
theorem index_shortest_scaled (tie : Tie) {n : Nat} (hn : 0 < n) (hfin : n < infinityIndex)
    (he : 0 ≤ (shortest tie n).exponent) :
    Decimal.index ⟨(shortest tie n).digits * Nat.pow 10 ((shortest tie n).exponent.toNat + 1), -1⟩ =
      n := by
  obtain ⟨k, hk, h⟩ := contains_shortest tie hn
  obtain ⟨m, hm, hsum⟩ : ∃ m : Nat, (-1 : Int) = m - 1074 ∧
      (shortest tie n).exponent.toNat + 1 + m = k := ⟨1073, rfl, by omega⟩
  have hpow : Nat.pow 10 ((shortest tie n).exponent.toNat + 1) * Nat.pow 10 m = Nat.pow 10 k := by
    rw [← hsum]
    exact (Nat.pow_add 10 _ m).symm
  refine Decimal.index_eq_of_contains hn hfin hm ?_
  rw [Nat.mul_assoc, hpow]
  exact h

end Reckoner
