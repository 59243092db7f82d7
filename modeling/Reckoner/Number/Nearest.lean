import Mathlib.Algebra.Order.Field.Power
import Mathlib.Tactic.Linarith
import Mathlib.Tactic.NormNum
import Mathlib.Tactic.Ring
import Mathlib.Tactic.WLOG
import Reckoner.Number.Decimal
import Reckoner.Number.Rational

/-!
# The nearest double

`IsNearest n q` says that no grid point is nearer to the number `q` than the `n`-th one, and that
the index is even where another grid point is as near. There is exactly one such index
(`exists_isNearest`, `IsNearest.eq`). The grid goes on beyond the finite doubles, so the nearest
double is infinite when the nearest grid point is one of those; `Rounds` says this, with the sign.

`Decimal.rounds_toFloat`: a decimal is read as the double nearest to its value.
-/

namespace Reckoner

namespace Binary64

/-- The `n`-th magnitude as a number. -/
def magnitude (n : Nat) : ℚ :=
  gridPoint n / one

/-- The grid point nearest to `q`, with an even index if there are two. -/
structure IsNearest (n : Nat) (q : ℚ) : Prop where
  le : ∀ m, |magnitude n - q| ≤ |magnitude m - q|
  even : ∀ m, m ≠ n → |magnitude n - q| = |magnitude m - q| → n % 2 = 0

/-- The double nearest to `q`, or to `-q` if `negative`, for `q` that is not negative. -/
inductive Rounds (negative : Bool) (q : ℚ) : Binary64 → Prop where
  | finite {n : Nat} (nearest : IsNearest n q) (hn : n < infinityIndex) :
      Rounds negative q (.finite negative n)
  | infinite {n : Nat} (nearest : IsNearest n q) (hn : infinityIndex ≤ n) :
      Rounds negative q (.infinite negative)

section Magnitudes

variable {m n : Nat}

theorem cast_one_pos : (0 : ℚ) < one :=
  Nat.cast_pos.mpr one_pos

theorem magnitude_zero : magnitude 0 = 0 := by
  simp [magnitude]

theorem magnitude_lt_iff : magnitude m < magnitude n ↔ m < n := by
  rw [magnitude, magnitude, div_lt_div_iff_of_pos_right cast_one_pos, Nat.cast_lt]
  exact ⟨fun h => Nat.lt_of_not_le fun hle => Nat.not_lt.mpr (gridPoint_mono hle) h,
    gridPoint_strictMono⟩

theorem magnitude_le_iff : magnitude m ≤ magnitude n ↔ m ≤ n := by
  rw [← not_lt, magnitude_lt_iff, not_lt]

theorem magnitude_nonneg (n : Nat) : 0 ≤ magnitude n := by
  rw [← magnitude_zero, magnitude_le_iff]
  exact Nat.zero_le n

/-- The grid point of the infinity, where the finite doubles end. -/
theorem magnitude_infinityIndex : magnitude infinityIndex = 2 ^ 1024 := by
  obtain ⟨k, hk⟩ : ∃ k, k = 1024 := ⟨1024, rfl⟩
  rw [magnitude, gridPoint_infinityIndex hk, Nat.cast_mul, Nat.cast_pow, Nat.cast_ofNat,
    mul_div_cancel_right₀ _ cast_one_pos.ne', hk]

theorem magnitude_pred_infinityIndex : magnitude (infinityIndex - 1) = 2 ^ 1024 - 2 ^ 971 := by
  obtain ⟨k, hk⟩ : ∃ k, k = 971 := ⟨971, rfl⟩
  obtain ⟨i, hi⟩ : ∃ i, i = 1074 := ⟨1074, rfl⟩
  have hindex : infinityIndex - 1 + 1 = infinityIndex := rfl
  have hshift : (infinityIndex - 1) / binade - 1 = k + i := by
    rw [hk, hi]
    rfl
  have hgrid := gridPoint_succ (infinityIndex - 1)
  rw [hindex, hshift, Nat.one_shiftLeft, Nat.pow_add, ← one_eq hi] at hgrid
  rw [← magnitude_infinityIndex, magnitude, magnitude, hgrid, Nat.cast_add, Nat.cast_mul, add_div,
    mul_div_cancel_right₀ _ cast_one_pos.ne', Nat.cast_pow, Nat.cast_ofNat, hk,
    add_sub_cancel_right]

end Magnitudes

section Nearest

variable {m n den : Nat} {a b q : ℚ}

/-- Of two numbers the smaller one is the nearer one below the midpoint. -/
theorem abs_sub_le_abs_sub_iff (h : a < b) : |a - q| ≤ |b - q| ↔ 2 * q ≤ a + b := by
  have hsquares : (b - q) ^ 2 - (a - q) ^ 2 = (b - a) * (a + b - 2 * q) := by ring
  rw [← sq_le_sq, ← sub_nonneg, hsquares, mul_nonneg_iff_of_pos_left (sub_pos.mpr h), sub_nonneg]

theorem abs_sub_le_abs_sub_iff_of_gt (h : b < a) : |a - q| ≤ |b - q| ↔ a + b ≤ 2 * q := by
  have hsquares : (b - q) ^ 2 - (a - q) ^ 2 = (a - b) * (2 * q - (a + b)) := by ring
  rw [← sq_le_sq, ← sub_nonneg, hsquares, mul_nonneg_iff_of_pos_left (sub_pos.mpr h), sub_nonneg]

theorem IsNearest.eq (h : IsNearest m q) (h' : IsNearest n q) : m = n := by
  by_contra hne
  wlog hlt : m < n generalizing m n
  · exact this h' h (Ne.symm hne) (lt_of_le_of_ne (Nat.le_of_not_lt hlt) (Ne.symm hne))
  have heq := le_antisymm (h.le n) (h'.le m)
  have heven := h.even n (Ne.symm hne) heq
  have heven' := h'.even m hne heq.symm
  -- there is an odd index between the two, and its grid point is nearer than both
  have hbetween : m < m + 1 ∧ m + 1 < n := by omega
  have hle := (abs_sub_le_abs_sub_iff (magnitude_lt_iff.mpr hbetween.1)).mp (h.le (m + 1))
  have hmid := (abs_sub_le_abs_sub_iff_of_gt (magnitude_lt_iff.mpr hlt)).mp (h'.le m)
  have hgrid := magnitude_lt_iff.mpr hbetween.2
  linarith

/-- It is enough to look at the midpoints with the two neighbours. -/
theorem isNearest_of_midpoints (hlow : magnitude (n - 1) + magnitude n ≤ 2 * q)
    (hhigh : 2 * q ≤ magnitude n + magnitude (n + 1))
    (heven : n % 2 = 0 ∨
      magnitude (n - 1) + magnitude n < 2 * q ∧ 2 * q < magnitude n + magnitude (n + 1)) :
    IsNearest n q := by
  have hbelow {m : Nat} (hm : m < n) : magnitude m ≤ magnitude (n - 1) :=
    magnitude_le_iff.mpr (Nat.le_sub_one_of_lt hm)
  have habove {m : Nat} (hm : n < m) : magnitude (n + 1) ≤ magnitude m :=
    magnitude_le_iff.mpr hm
  constructor
  · intro m
    rcases lt_trichotomy m n with hm | rfl | hm
    · have := hbelow hm
      exact (abs_sub_le_abs_sub_iff_of_gt (magnitude_lt_iff.mpr hm)).mpr (by linarith)
    · exact le_rfl
    · have := habove hm
      exact (abs_sub_le_abs_sub_iff (magnitude_lt_iff.mpr hm)).mpr (by linarith)
  · intro m hne heq
    refine heven.resolve_right ?_
    rintro ⟨hlow', hhigh'⟩
    rcases lt_or_gt_of_ne hne with hm | hm
    · have hle := (abs_sub_le_abs_sub_iff (magnitude_lt_iff.mpr hm)).mp heq.ge
      linarith [hbelow hm]
    · have hle := (abs_sub_le_abs_sub_iff_of_gt (magnitude_lt_iff.mpr hm)).mp heq.ge
      linarith [habove hm]

/-- The index that is computed is between the midpoints, and even if it is at one of them. -/
theorem nearestIndex_midpoints (num : Nat) (hden : 0 < den) :
    (gridPoint (nearestIndex num den - 1) + gridPoint (nearestIndex num den)) * den ≤ 2 * num ∧
      2 * num ≤ (gridPoint (nearestIndex num den) + gridPoint (nearestIndex num den + 1)) * den ∧
      (nearestIndex num den % 2 = 0 ∨
        (gridPoint (nearestIndex num den - 1) + gridPoint (nearestIndex num den)) * den < 2 * num ∧
        2 * num < (gridPoint (nearestIndex num den) + gridPoint (nearestIndex num den + 1)) * den)
      := by
  have hfloor := (Nat.le_div_iff_mul_le hden).mp (gridPoint_floorIndex_le (num / den))
  have hnext := (Nat.div_lt_iff_lt_mul hden).mp (lt_gridPoint_floorIndex_succ (num / den))
  unfold nearestIndex
  simp only
  generalize floorIndex (num / den) = n at *
  have hstep (k : Nat) := Nat.mul_lt_mul_of_pos_right (gridPoint_lt_succ k) hden
  have hnow := hstep n
  have hlater := hstep (n + 1)
  have hearlier := Nat.mul_le_mul_right den (gridPoint_mono (Nat.sub_le n 1))
  have hodd : n % 2 = 1 → gridPoint (n - 1) * den < gridPoint n * den := by
    intro hodd
    have := hstep (n - 1)
    rwa [Nat.sub_add_cancel (by omega)] at this
  simp only [Nat.add_mul]
  split
  · omega
  · split
    · rw [Nat.add_sub_cancel]
      omega
    · rcases Nat.mod_two_eq_zero_or_one n with heven | hodd'
      · rw [heven, Nat.add_zero]
        omega
      · rw [hodd', Nat.add_sub_cancel]
        omega

theorem isNearest_nearestIndex (num : Nat) (hden : 0 < den) :
    IsNearest (nearestIndex num den) ((num : ℚ) / den / one) := by
  have hle (a b : Nat) : (a / one + b / one : ℚ) ≤ 2 * (num / den / one) ↔
      (a + b) * den ≤ 2 * num := by
    have hcast : (0 : ℚ) < den := Nat.cast_pos.mpr hden
    rw [← add_div, ← mul_div_assoc, div_le_div_iff_of_pos_right cast_one_pos, ← mul_div_assoc,
      le_div_iff₀ hcast]
    norm_cast
  have hge (a b : Nat) : 2 * (num / den / one) ≤ (a / one + b / one : ℚ) ↔
      2 * num ≤ (a + b) * den := by
    have hcast : (0 : ℚ) < den := Nat.cast_pos.mpr hden
    rw [← add_div, ← mul_div_assoc, div_le_div_iff_of_pos_right cast_one_pos, ← mul_div_assoc,
      div_le_iff₀ hcast]
    norm_cast
  obtain ⟨hlow, hhigh, heven⟩ := nearestIndex_midpoints num hden
  refine isNearest_of_midpoints ((hle ..).mpr hlow) ((hge ..).mpr hhigh) (heven.imp_right ?_)
  rintro ⟨hlow', hhigh'⟩
  exact ⟨lt_of_not_ge fun h => Nat.not_le.mpr hlow' ((hge ..).mp h),
    lt_of_not_ge fun h => Nat.not_le.mpr hhigh' ((hle ..).mp h)⟩

theorem IsNearest.infinityIndex_le (h : IsNearest n q) (hq : magnitude infinityIndex ≤ q) :
    infinityIndex ≤ n := by
  by_contra hlt
  have hmagnitude := magnitude_lt_iff.mpr (Nat.lt_of_not_le hlt)
  have hmid := (abs_sub_le_abs_sub_iff hmagnitude).mp (h.le infinityIndex)
  linarith

theorem IsNearest.lt_infinityIndex_iff (h : IsNearest n q) :
    n < infinityIndex ↔ 2 * q < magnitude (infinityIndex - 1) + magnitude infinityIndex := by
  have hpred : infinityIndex - 1 < infinityIndex := by decide
  constructor
  · intro hn
    have hle := (abs_sub_le_abs_sub_iff (magnitude_lt_iff.mpr hn)).mp (h.le infinityIndex)
    have hgrid := magnitude_le_iff.mpr (Nat.le_sub_one_of_lt hn)
    refine lt_of_le_of_ne (by linarith) fun heq => ?_
    -- half way the infinity is taken, as the greatest finite double has an odd index
    obtain rfl : n = infinityIndex - 1 := by
      have hlast : magnitude (infinityIndex - 1) ≤ magnitude n := by linarith
      exact Nat.le_antisymm (Nat.le_sub_one_of_lt hn) (magnitude_le_iff.mp hlast)
    have hback := (abs_sub_le_abs_sub_iff_of_gt (q := q) (magnitude_lt_iff.mpr hpred)).mpr
      (by linarith)
    exact absurd (h.even infinityIndex hpred.ne' (le_antisymm (h.le _) hback)) (by decide)
  · intro hq
    by_contra hn
    have hgrid := magnitude_le_iff.mpr (Nat.le_of_not_lt hn)
    have hlt := lt_of_lt_of_le hpred (Nat.le_of_not_lt hn)
    have hle := (abs_sub_le_abs_sub_iff_of_gt (magnitude_lt_iff.mpr hlt)).mp
      (h.le (infinityIndex - 1))
    linarith

end Nearest

section Rounding

variable {negative : Bool} {q : ℚ} {x y : Binary64}

theorem Rounds.eq (h : Rounds negative q x) (h' : Rounds negative q y) : x = y := by
  cases h with
  | finite nearest hn =>
    cases h' with
    | finite nearest' hn' => rw [nearest.eq nearest']
    | infinite nearest' hn' =>
      rw [nearest.eq nearest'] at hn
      exact absurd hn (Nat.not_lt.mpr hn')
  | infinite nearest hn =>
    cases h' with
    | finite nearest' hn' =>
      rw [nearest.eq nearest'] at hn
      exact absurd hn' (Nat.not_lt.mpr hn)
    | infinite nearest' hn' => rfl

/-- The numbers with a finite nearest double end half way between the greatest one and `2 ^ 1024`. -/
theorem Rounds.isFinite_iff (h : Rounds negative q x) :
    x.isFinite = true ↔ q < 2 ^ 1024 - 2 ^ 970 := by
  have hmiddle : (2 : ℚ) * (2 ^ 1024 - 2 ^ 970) =
      magnitude (infinityIndex - 1) + magnitude infinityIndex := by
    rw [magnitude_infinityIndex, magnitude_pred_infinityIndex, pow_succ _ 970]
    generalize (2 : ℚ) ^ 1024 = a
    generalize (2 : ℚ) ^ 970 = b
    ring
  rw [← mul_lt_mul_iff_right₀ (zero_lt_two (α := ℚ)), hmiddle]
  cases h with
  | finite nearest hn => exact iff_of_true rfl (nearest.lt_infinityIndex_iff.mp hn)
  | infinite nearest hn =>
    exact iff_of_false nofun fun hq => Nat.not_lt.mpr hn (nearest.lt_infinityIndex_iff.mpr hq)

theorem IsNearest.rounds {m n : Nat} (h : IsNearest n q)
    (hm : min m infinityIndex = min n infinityIndex) :
    Rounds negative q (ofFloat (if negative then -floatOfIndex m else floatOfIndex m)) := by
  have hlt : m < infinityIndex ↔ n < infinityIndex := by omega
  simp only [ofFloat_floatOfIndex, hlt]
  split
  · obtain rfl : m = n := by omega
    exact .finite h ‹_›
  · exact .infinite h (Nat.le_of_not_lt ‹_›)

end Rounding

end Binary64

section Doubles

open Binary64

variable {x : Float} {negative : Bool} {n : Nat}

theorem rational_of_ofFloat (h : ofFloat x = .finite negative n) :
    rational x = (if negative then -1 else 1) * magnitude n := by
  rw [rational, h]
  rfl

theorem abs_rational_of_ofFloat (h : ofFloat x = .finite negative n) :
    |rational x| = magnitude n := by
  rw [rational_of_ofFloat h, abs_mul, abs_of_nonneg (magnitude_nonneg n)]
  cases negative <;> simp

end Doubles

namespace Decimal

open Binary64

/-- The number that is written. -/
def value (d : Decimal) : ℚ :=
  d.digits * 10 ^ d.exponent

theorem value_neg (n k : Nat) : value ⟨n, -(k : Int)⟩ = (n : ℚ) / 10 ^ k := by
  rw [value, zpow_neg, zpow_natCast, div_eq_mul_inv]

theorem value_add (n : Nat) (e e' : ℤ) : value ⟨n, e + e'⟩ = value ⟨n, e⟩ * 10 ^ e' := by
  rw [value, value, zpow_add₀ (by decide), mul_assoc]

variable {d : Decimal}

theorem value_of_ofNat {e : Nat} (h : d.exponent = .ofNat e) :
    d.value = ((d.digits * Nat.pow 10 e * one : Nat) : ℚ) / (1 : Nat) / one := by
  have hpow : ((Nat.pow 10 e : Nat) : ℚ) = 10 ^ e := by
    rw [Nat.pow_eq, Nat.cast_pow, Nat.cast_ofNat]
  rw [Nat.cast_mul, Nat.cast_one, div_one, mul_div_cancel_right₀ _ cast_one_pos.ne', Nat.cast_mul,
    hpow, value, h, Int.ofNat_eq_natCast, zpow_natCast]

theorem value_of_negSucc {e : Nat} (h : d.exponent = .negSucc e) :
    d.value = ((d.digits * one : Nat) : ℚ) / (Nat.pow 10 (e + 1) : Nat) / one := by
  have hpow : ((Nat.pow 10 (e + 1) : Nat) : ℚ) = 10 ^ (e + 1) := by
    rw [Nat.pow_eq, Nat.cast_pow, Nat.cast_ofNat]
  rw [div_right_comm, Nat.cast_mul, mul_div_cancel_right₀ _ cast_one_pos.ne', hpow, value, h,
    zpow_negSucc, div_eq_mul_inv]

theorem two_mul_value_le_of_vanishes (h : d.Vanishes) : 2 * d.value ≤ magnitude 1 := by
  rcases h with hzero | hlog
  · rw [value, hzero, Nat.cast_zero, zero_mul, mul_zero]
    exact magnitude_nonneg 1
  · obtain ⟨k, hk⟩ : ∃ k : Nat, d.exponent = -k := ⟨d.exponent.natAbs, by omega⟩
    have hgrid : gridPoint 1 = 1 := by decide
    have hsmall : 2 * d.digits * one < 10 ^ k := two_mul_mul_one_lt (by omega)
    rw [magnitude, hgrid, Nat.cast_one, le_div_iff₀ cast_one_pos, value, hk, zpow_neg,
      zpow_natCast, ← div_eq_mul_inv, ← mul_div_assoc, div_mul_eq_mul_div,
      div_le_one (by positivity)]
    exact_mod_cast hsmall.le

theorem isNearest_of_vanishes (h : d.Vanishes) : IsNearest 0 d.value := by
  have hsmall := two_mul_value_le_of_vanishes h
  have hnonneg : 0 ≤ d.value := by
    unfold value
    positivity
  refine isNearest_of_midpoints ?_ ?_ (.inl rfl)
  · rw [magnitude_zero, add_zero]
    exact mul_nonneg zero_le_two hnonneg
  · rwa [magnitude_zero, zero_add]

theorem le_value_of_overflows (h : d.Overflows) (hd : 0 < d.digits) :
    magnitude infinityIndex ≤ d.value := by
  obtain ⟨m, hm, k, hk⟩ : ∃ m, m = 309 ∧ ∃ k : Nat, d.exponent = (m + k : Nat) := by
    rw [Overflows] at h
    exact ⟨309, rfl, d.exponent.toNat - 309, by omega⟩
  have hpow : gridPoint infinityIndex ≤ 10 ^ m * one := by
    subst hm
    decide +kernel
  have hnat : gridPoint infinityIndex ≤ d.digits * 10 ^ (m + k) * one := by
    refine Nat.le_trans hpow (Nat.mul_le_mul_right _ ?_)
    rw [Nat.pow_add, ← Nat.mul_assoc, Nat.mul_right_comm]
    exact Nat.le_mul_of_pos_left _ (Nat.mul_pos hd (Nat.pow_pos (by decide)))
  rw [magnitude, div_le_iff₀ cast_one_pos, value, hk, zpow_natCast]
  exact_mod_cast hnat

/-- The index that is computed is the nearest one, or stands for the infinity as that one does. -/
theorem exists_isNearest (d : Decimal) :
    ∃ n, IsNearest n d.value ∧ min d.index infinityIndex = min n infinityIndex := by
  have hnearest : ∃ n, IsNearest n d.value ∧ (¬ d.Vanishes → ¬ d.Overflows → d.index = n) := by
    cases he : d.exponent with
    | ofNat e =>
      have h := isNearest_nearestIndex (d.digits * Nat.pow 10 e * one) Nat.one_pos
      rw [← value_of_ofNat he] at h
      refine ⟨_, h, fun hvanishes hoverflows => ?_⟩
      rw [index, if_neg hvanishes, if_neg hoverflows, he]
    | negSucc e =>
      have hten : 0 < Nat.pow 10 (e + 1) := Nat.pow_pos (by decide)
      have h := isNearest_nearestIndex (d.digits * one) hten
      rw [← value_of_negSucc he] at h
      refine ⟨_, h, fun hvanishes hoverflows => ?_⟩
      rw [index, if_neg hvanishes, if_neg hoverflows, he]
  by_cases hvanishes : d.Vanishes
  · exact ⟨0, isNearest_of_vanishes hvanishes, by rw [index, if_pos hvanishes]⟩
  · obtain ⟨n, hn, hindex⟩ := hnearest
    refine ⟨n, hn, ?_⟩
    by_cases hoverflows : d.Overflows
    · have hdigits : 0 < d.digits := Nat.pos_of_ne_zero fun h => hvanishes (.inl h)
      have hle := hn.infinityIndex_le (le_value_of_overflows hoverflows hdigits)
      rw [index, if_neg hvanishes, if_pos hoverflows, Nat.min_self, Nat.min_eq_right hle]
    · rw [hindex hvanishes hoverflows]

theorem index_of_isNearest {n : Nat} (h : IsNearest n d.value)
    (hn : n < infinityIndex) : d.index = n := by
  obtain ⟨m, hm, hmin⟩ := d.exists_isNearest
  rw [hm.eq h] at hmin
  omega

theorem isNearest_index (h : d.index < infinityIndex) :
    IsNearest d.index d.value := by
  obtain ⟨m, hm, hmin⟩ := d.exists_isNearest
  obtain rfl : d.index = m := by omega
  exact hm

theorem rounds_toFloat (negative : Bool) (d : Decimal) :
    Rounds negative d.value (ofFloat (if negative then -d.toFloat else d.toFloat)) := by
  obtain ⟨n, hn, hindex⟩ := exists_isNearest d
  exact hn.rounds hindex

end Decimal

end Reckoner
