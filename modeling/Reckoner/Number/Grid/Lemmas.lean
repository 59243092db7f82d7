import Mathlib.Algebra.Group.Nat.Defs
import Reckoner.Number.Grid.Basic

/-!
# The order of the grid

Grid points increase with their index (`gridPoint_strictMono`), by steps that double from one
binade to the next (`gridPoint_succ`). `floorIndex_eq` and `nearestIndex_eq` say that an index is
found by the inequalities that single it out: between its grid point and the next, and between the
midpoints with its neighbours.
-/

namespace Reckoner.Binary64

theorem binade_pos : 0 < binade := by decide

@[simp]
theorem gridPoint_zero : gridPoint 0 = 0 := by
  simp [gridPoint]

/-- In the first two binades the step is one unit. -/
theorem gridPoint_of_lt {n : Nat} (h : n < 2 * binade) : gridPoint n = n := by
  have : n / binade - 1 = 0 := by
    have := Nat.div_lt_of_lt_mul (Nat.mul_comm 2 binade ▸ h)
    omega
  simp [gridPoint, this]

/-- In the binade that starts at index `(k + 1) * binade` the step is `1 <<< k` units. -/
theorem gridPoint_add {k m : Nat} (h : binade ≤ m) (h' : m < 2 * binade) :
    gridPoint (k * binade + m) = m <<< k := by
  have hdiv : (k * binade + m) / binade = k + 1 := by
    rw [Nat.mul_comm, Nat.mul_add_div binade_pos, Nat.div_eq_of_lt_le (k := 1) (by omega) (by omega)]
  simp [gridPoint, hdiv]

theorem exists_eq_add {n : Nat} (h : binade ≤ n) :
    ∃ k m, binade ≤ m ∧ m < 2 * binade ∧ n = k * binade + m := by
  refine ⟨n / binade - 1, n % binade + binade, by omega, ?_, ?_⟩
  · have := Nat.mod_lt n binade_pos
    omega
  · have h₁ := Nat.div_add_mod' n binade
    obtain ⟨q, hq⟩ : ∃ q, n / binade = q + 1 := Nat.exists_eq_add_one.mpr (Nat.div_pos h binade_pos)
    rw [hq, Nat.succ_mul] at h₁
    rw [hq, Nat.add_sub_cancel]
    omega

/-- Within a binade, the last of its points included, the next grid point is one step on. -/
theorem gridPoint_succ_add {k m : Nat} (h : binade ≤ m) (h' : m < 2 * binade) :
    gridPoint (k * binade + m + 1) = (m + 1) <<< k := by
  by_cases hlast : m + 1 < 2 * binade
  · rw [Nat.add_assoc, gridPoint_add (by omega) hlast]
  · have hm : m + 1 = 2 * binade := by omega
    have hnext : k * binade + m + 1 = (k + 1) * binade + binade := by
      rw [Nat.add_assoc, hm, Nat.add_mul k 1]
      omega
    have hlt : binade < 2 * binade := by
      have := binade_pos
      omega
    rw [hnext, hm, gridPoint_add (Nat.le_refl binade) hlt, Nat.shiftLeft_succ_inside]

/-- The distance from a grid point to the next one. -/
theorem gridPoint_succ (n : Nat) : gridPoint (n + 1) = gridPoint n + 1 <<< (n / binade - 1) := by
  by_cases h : binade ≤ n
  · obtain ⟨k, m, hm, hm', rfl⟩ := exists_eq_add h
    have hdiv : (k * binade + m) / binade - 1 = k := by
      rw [Nat.mul_comm, Nat.mul_add_div binade_pos,
        Nat.div_eq_of_lt_le (k := 1) (by omega) (by omega), Nat.add_sub_cancel]
    rw [hdiv, gridPoint_add hm hm', gridPoint_succ_add hm hm', Nat.shiftLeft_eq, Nat.shiftLeft_eq,
      Nat.one_shiftLeft, Nat.succ_mul]
  · have : n / binade - 1 = 0 := by rw [Nat.div_eq_of_lt (by omega)]
    rw [this, gridPoint_of_lt (by omega), gridPoint_of_lt (by omega), Nat.shiftLeft_zero]

theorem gridPoint_lt_succ (n : Nat) : gridPoint n < gridPoint (n + 1) := by
  rw [gridPoint_succ, Nat.one_shiftLeft]
  exact Nat.lt_add_of_pos_right (Nat.two_pow_pos _)

theorem gridPoint_mono {m n : Nat} (h : m ≤ n) : gridPoint m ≤ gridPoint n := by
  induction h with
  | refl => exact Nat.le_refl _
  | step _ ih => exact Nat.le_trans ih (Nat.le_of_lt (gridPoint_lt_succ _))

theorem gridPoint_strictMono {m n : Nat} (h : m < n) : gridPoint m < gridPoint n :=
  Nat.lt_of_lt_of_le (gridPoint_lt_succ m) (gridPoint_mono h)

section Powers

variable {k : Nat}

-- the exponents are variables here, so that no power is evaluated

theorem one_eq (hk : k = 1074) : one = 2 ^ k := by
  rw [one, ← hk, Nat.one_shiftLeft]

theorem two_mul_one (hk : k = 1075) : 2 * one = 2 ^ k := by
  obtain ⟨j, rfl⟩ : ∃ j, k = j + 1 := ⟨1074, hk⟩
  rw [one_eq (Nat.succ.inj hk), Nat.pow_succ']

/-- Digits that stand so far behind the point are less than half a unit. -/
theorem two_mul_mul_one_lt {n : Nat} (h : n.log2 + 1 + 1075 ≤ 3 * k) : 2 * n * one < 10 ^ k := by
  obtain ⟨m, hm, hlog⟩ : ∃ m, m = 1075 ∧ n.log2 + 1 + m ≤ 3 * k := ⟨1075, rfl, h⟩
  calc 2 * n * one = n * 2 ^ m := by rw [← two_mul_one hm, Nat.mul_assoc, Nat.mul_left_comm]
    _ < 2 ^ (n.log2 + 1) * 2 ^ m := Nat.mul_lt_mul_of_pos_right Nat.lt_log2_self (Nat.two_pow_pos m)
    _ = 2 ^ (n.log2 + 1 + m) := (Nat.pow_add ..).symm
    _ ≤ 2 ^ (3 * k) := Nat.pow_le_pow_right (by decide) hlog
    _ = 8 ^ k := Nat.pow_mul ..
    _ ≤ 10 ^ k := Nat.pow_le_pow_left (by decide) k

theorem two_mul_half_one : 2 * (one / 2) = one := by
  obtain ⟨k, hk⟩ : ∃ k, k + 1 = 1074 := ⟨1073, rfl⟩
  rw [one_eq hk, Nat.pow_succ', Nat.mul_div_cancel_left _ Nat.zero_lt_two]

/-- The last binade of the finite doubles ends at `2 ^ 1024`. -/
theorem gridPoint_infinityIndex (hk : k = 1024) : gridPoint infinityIndex = 2 ^ k * one := by
  obtain ⟨j, hj⟩ : ∃ j, j = 2046 := ⟨2046, rfl⟩
  obtain ⟨i, hi⟩ : ∃ i, i = 1074 := ⟨1074, rfl⟩
  have hindex : infinityIndex = j * binade + binade := hj ▸ rfl
  have hlt : binade < 2 * binade := by decide
  have hbinade : binade = 2 ^ 52 := rfl
  rw [hindex, gridPoint_add (Nat.le_refl binade) hlt, Nat.shiftLeft_eq, hbinade, one_eq hi,
    ← Nat.pow_add, ← Nat.pow_add]
  exact congrArg (2 ^ ·) (by omega)

end Powers

theorem floorIndex_of_lt {units : Nat} (h : units < 2 * binade) : floorIndex units = units := by
  have hlog : units.log2 - 52 = 0 := by
    by_cases h0 : units = 0
    · subst h0
      rfl
    · have := (Nat.log2_lt h0).mpr (show units < 2 ^ 53 from h)
      omega
  simp [floorIndex, hlog]

/-- Beyond the first two binades the index is made of the shift and the leading bits. -/
theorem exists_floorIndex_eq {units : Nat} (h : 2 * binade ≤ units) :
    ∃ k m, binade ≤ m ∧ m < 2 * binade ∧ floorIndex units = k * binade + m ∧
      m <<< k ≤ units ∧ units < (m + 1) <<< k := by
  have h0 : units ≠ 0 := by
    have := binade_pos
    omega
  have hlog : 53 ≤ units.log2 := (Nat.le_log2 h0).mpr h
  have hlow := Nat.log2_self_le h0
  have hhigh := Nat.lt_log2_self (n := units)
  obtain ⟨k, hk⟩ : ∃ k, units.log2 = 52 + k := ⟨units.log2 - 52, by omega⟩
  have hdiv : units >>> k = units / 2 ^ k := Nat.shiftRight_eq_div_pow ..
  refine ⟨k, units >>> k, ?_, ?_, ?_, ?_, ?_⟩
  · rw [hdiv, Nat.le_div_iff_mul_le (Nat.two_pow_pos k)]
    rwa [hk, Nat.pow_add] at hlow
  · rw [hdiv, Nat.div_lt_iff_lt_mul (Nat.two_pow_pos k)]
    rwa [hk, show 52 + k + 1 = 53 + k by omega, Nat.pow_add] at hhigh
  · simp [floorIndex, hk]
  · rw [hdiv, Nat.shiftLeft_eq]
    exact Nat.div_mul_le_self ..
  · rw [hdiv, Nat.shiftLeft_eq, Nat.succ_mul]
    exact Nat.lt_div_mul_add (Nat.two_pow_pos k)

theorem gridPoint_floorIndex_le (units : Nat) : gridPoint (floorIndex units) ≤ units := by
  by_cases h : units < 2 * binade
  · exact Nat.le_of_eq (by rw [floorIndex_of_lt h, gridPoint_of_lt h])
  · obtain ⟨k, m, hm, hm', heq, hle, -⟩ := exists_floorIndex_eq (Nat.le_of_not_lt h)
    rwa [heq, gridPoint_add hm hm']

theorem lt_gridPoint_floorIndex_succ (units : Nat) : units < gridPoint (floorIndex units + 1) := by
  by_cases h : units < 2 * binade
  · rw [floorIndex_of_lt h]
    exact Nat.lt_of_le_of_lt (Nat.le_of_eq (gridPoint_of_lt h).symm) (gridPoint_lt_succ units)
  · obtain ⟨k, m, hm, hm', heq, -, hlt⟩ := exists_floorIndex_eq (Nat.le_of_not_lt h)
    rwa [heq, gridPoint_succ_add hm hm']

/-- The last grid point at or below some units is found by any index that is right for it. -/
theorem floorIndex_eq {units n : Nat} (h : gridPoint n ≤ units) (h' : units < gridPoint (n + 1)) :
    floorIndex units = n := by
  have h₁ := gridPoint_floorIndex_le units
  have h₂ := lt_gridPoint_floorIndex_succ units
  rcases Nat.lt_trichotomy (floorIndex units) n with hlt | heq | hgt
  · have := gridPoint_mono (Nat.succ_le_of_lt hlt)
    simp only [Nat.succ_eq_add_one] at this
    omega
  · exact heq
  · have := gridPoint_mono (Nat.succ_le_of_lt hgt)
    simp only [Nat.succ_eq_add_one] at this
    omega

/-- A fraction between the midpoints of a grid point with its neighbours is nearest to it, and so
is a midpoint of an even grid point. -/
theorem nearestIndex_eq {num den n : Nat} (hden : 0 < den)
    (hlow : (gridPoint (n - 1) + gridPoint n) * den ≤ 2 * num)
    (hhigh : 2 * num ≤ (gridPoint n + gridPoint (n + 1)) * den)
    (heven : n % 2 = 0 ∨ (gridPoint (n - 1) + gridPoint n) * den < 2 * num ∧
      2 * num < (gridPoint n + gridPoint (n + 1)) * den) :
    nearestIndex num den = n := by
  have hfloor : num / den * den ≤ num := Nat.div_mul_le_self ..
  have hlt : num < gridPoint (n + 1) * den := by
    have := Nat.mul_lt_mul_of_pos_right (gridPoint_lt_succ n) hden
    rw [Nat.add_mul] at hhigh
    omega
  have hupper : num / den < gridPoint (n + 1) := (Nat.div_lt_iff_lt_mul hden).mpr hlt
  by_cases h : gridPoint n ≤ num / den
  · rw [nearestIndex, floorIndex_eq h hupper]
    rcases Nat.lt_or_eq_of_le hhigh with hlt | heq
    · simp [hlt]
    · simp only [heq, Nat.lt_irrefl, if_false]
      omega
  · obtain ⟨m, rfl⟩ : ∃ m, n = m + 1 := by
      refine Nat.exists_eq_add_one.mpr (Nat.pos_of_ne_zero ?_)
      rintro rfl
      exact h (by simp)
    rw [Nat.add_sub_cancel] at hlow heven
    have hle : gridPoint m ≤ num / den := by
      rw [Nat.le_div_iff_mul_le hden]
      have := Nat.mul_le_mul_right den (Nat.le_of_lt (gridPoint_lt_succ m))
      rw [Nat.add_mul] at hlow
      omega
    rw [nearestIndex, floorIndex_eq hle (Nat.lt_of_not_le h)]
    rcases Nat.lt_or_eq_of_le hlow with hlt | heq
    · simp [hlt, Nat.not_lt_of_lt hlt]
    · simp only [← heq, Nat.lt_irrefl, if_false]
      omega

end Reckoner.Binary64
