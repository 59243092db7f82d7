import Mathlib.Tactic.Linarith
import Reckoner.Number.Grid.Operations
import Reckoner.Number.Layout
import Reckoner.Number.Nearest
import Reckoner.Number.Shortest.Lemmas

/-!
# Doubles near whole numbers

Every whole number below `2 ^ 53` is a grid point, and every magnitude from `2 ^ 52` on is whole. So
the whole number nearest to a double is a double too (`exists_gridPoint_nearestWhole`), and a double
is near to a whole number exactly where it is within the tolerance of any integer
(`nearWhole_iff_exists`). The shortest decimal of any other double has digits behind the point
(`exponent_shortest_neg`).
-/

namespace Reckoner

open Binary64 Layout

/-- The whole number nearest to a double, and half way the one further from zero. -/
def roundWhole (x : Float) : Float :=
  match ofFloat x with
  | .finite negative n => Binary64.toFloat (.finite negative (Decimal.index ⟨nearestWhole n, 0⟩))
  | _ => x

def IsWhole (x : Float) : Prop :=
  ∃ k : ℤ, rational x = k

/-- The number is not within `1e-9` of any integer. -/
def FarFromWhole (x : Float) : Prop :=
  ∀ k : ℤ, rational 1e-9 ≤ |rational x - k|

namespace Binary64

variable {k m n w : Nat}

theorem exists_one_eq_two_pow : ∃ p, one = 2 ^ p := by
  obtain ⟨p, hp⟩ : ∃ p, p = 1074 := ⟨1074, rfl⟩
  exact ⟨p, one_eq hp⟩

/-- A significand with an exponent is a grid point. -/
theorem exists_gridPoint_eq_mul (h : w < 2 * binade) (i : Nat) : ∃ m, gridPoint m = w * 2 ^ i := by
  by_cases hsmall : w * 2 ^ i < 2 * binade
  · exact ⟨_, gridPoint_of_lt hsmall⟩
  obtain ⟨k, m, hm, hm', -, hle, hlt⟩ := exists_floorIndex_eq (Nat.le_of_not_lt hsmall)
  refine ⟨k * binade + m, ?_⟩
  rw [gridPoint_add hm hm']
  rw [Nat.shiftLeft_eq] at hle hlt ⊢
  -- the step of this binade divides the number, which would be too large otherwise
  have hk : k ≤ i := by
    by_contra hk
    have hstep : 2 * 2 ^ i ≤ 2 ^ k := by
      rw [Nat.mul_comm, ← Nat.pow_succ]
      exact Nat.pow_le_pow_right (by decide) (by omega)
    have hlarge : 2 * binade * 2 ^ i ≤ m * 2 ^ k := by
      rw [Nat.mul_comm 2, Nat.mul_assoc]
      exact Nat.mul_le_mul hm hstep
    have hpow := Nat.mul_lt_mul_of_pos_right h (Nat.two_pow_pos i)
    omega
  obtain ⟨j, rfl⟩ : ∃ j, i = j + k := ⟨i - k, by omega⟩
  rw [Nat.pow_add, ← Nat.mul_assoc] at hle hlt ⊢
  have hle' := Nat.le_of_mul_le_mul_right hle (Nat.two_pow_pos k)
  have hlt' := Nat.lt_of_mul_lt_mul_right hlt
  rw [Nat.le_antisymm hle' (Nat.le_of_lt_succ hlt')]

theorem exists_gridPoint_eq (h : w < 2 * binade) : ∃ m, gridPoint m = w * one := by
  obtain ⟨p, hp⟩ := exists_one_eq_two_pow
  rw [hp]
  exact exists_gridPoint_eq_mul h p

/-- The step between doubles that are not whole divides one. -/
theorem exists_one_eq_mul (h : IsIndex n k m) (hfar : ∀ w, gridPoint n ≠ w * one) :
    ∃ j, one = 2 ^ j * 2 ^ k := by
  obtain ⟨p, hp⟩ := exists_one_eq_two_pow
  have hk : k ≤ p := by
    by_contra hk
    refine hfar (m * 2 ^ (k - p)) ?_
    rw [h.gridPoint_eq, hp, Nat.mul_assoc, ← Nat.pow_add, Nat.sub_add_cancel (Nat.le_of_not_le hk)]
  exact ⟨p - k, by rw [hp, ← Nat.pow_add, Nat.sub_add_cancel hk]⟩

/-- From `2 ^ 52` on every double is whole. -/
theorem gridPoint_lt_of_not_whole (hfar : ∀ w, gridPoint n ≠ w * one) :
    gridPoint n < binade * one := by
  obtain ⟨k, m, h⟩ := exists_isIndex n
  obtain ⟨j, hone⟩ := exists_one_eq_mul h hfar
  cases j with
  | zero => exact absurd (by rw [h.gridPoint_eq, hone, Nat.pow_zero, Nat.one_mul]) (hfar m)
  | succ j =>
    have hstep : 2 * 2 ^ k ≤ one :=
      hone ▸ Nat.mul_le_mul_right _ (Nat.le_self_pow (Nat.succ_ne_zero j) 2)
    calc gridPoint n = m * 2 ^ k := h.gridPoint_eq
      _ < 2 * binade * 2 ^ k := Nat.mul_lt_mul_of_pos_right h.lt (Nat.two_pow_pos k)
      _ = binade * (2 * 2 ^ k) := by rw [Nat.mul_comm 2, Nat.mul_assoc]
      _ ≤ binade * one := Nat.mul_le_mul_left _ hstep

theorem magnitude_eq_iff : magnitude n = w ↔ gridPoint n = w * one := by
  rw [magnitude, div_eq_iff cast_one_pos.ne', ← Nat.cast_mul, Nat.cast_inj]

/-- A grid point is nearest to itself. -/
theorem isNearest_magnitude (n : Nat) : IsNearest n (magnitude n) where
  le m := by
    rw [sub_self, abs_zero]
    exact abs_nonneg _
  even m hne heq := by
    rw [sub_self, abs_zero, eq_comm, abs_eq_zero, sub_eq_zero] at heq
    have hle := magnitude_le_iff.mp heq.le
    have hge := magnitude_le_iff.mp heq.ge
    omega

/-- The grid point nearest to a whole number is whole. -/
theorem exists_eq_of_isNearest (h : IsNearest n w) : ∃ v, gridPoint n = v * one := by
  by_cases hsmall : w ≤ binade
  · obtain ⟨m, hm⟩ := exists_gridPoint_eq (w := w) (Nat.lt_of_le_of_lt hsmall (by decide))
    have hself := isNearest_magnitude m
    rw [magnitude_eq_iff.mpr hm] at hself
    exact ⟨w, h.eq hself ▸ hm⟩
  · by_contra hfar
    -- a number with a fraction is smaller than `2 ^ 52`, which is nearer
    obtain ⟨p, hp⟩ := exists_gridPoint_eq (w := binade) (by decide)
    have hlt : magnitude n < magnitude p := by
      refine magnitude_lt_iff.mpr (Nat.lt_of_not_le fun hle => ?_)
      have hbelow := gridPoint_lt_of_not_whole (not_exists.mp hfar)
      exact Nat.not_lt.mpr (gridPoint_mono hle) (hp ▸ hbelow)
    have hle := (abs_sub_le_abs_sub_iff hlt).mp (h.le p)
    have hlarge : magnitude p < w := by
      rw [magnitude_eq_iff.mpr hp, Nat.cast_lt]
      exact Nat.lt_of_not_le hsmall
    linarith

end Binary64

namespace Layout

variable {k m n w : Nat}

theorem abs_magnitude_sub (n w : Nat) :
    |magnitude n - w| = |(gridPoint n : ℚ) - (w * one : Nat)| / one := by
  have hdiv : magnitude n - w = ((gridPoint n : ℚ) - (w * one : Nat)) / one := by
    rw [magnitude, Nat.cast_mul, sub_div, mul_div_cancel_right₀ _ cast_one_pos.ne']
  rw [hdiv, abs_div, abs_of_pos cast_one_pos]

theorem abs_magnitude_sub_nearestWhole_le (n : Nat) : |magnitude n - nearestWhole n| ≤ 1 / 2 := by
  have hhalf := two_mul_half_one
  have hlow : nearestWhole n * one ≤ gridPoint n + one / 2 := Nat.div_mul_le_self ..
  have hhigh : gridPoint n + one / 2 < nearestWhole n * one + one :=
    Nat.lt_div_mul_add Binary64.one_pos
  have hlow' : 2 * (nearestWhole n * one) ≤ 2 * gridPoint n + one := by omega
  have hhigh' : 2 * gridPoint n ≤ 2 * (nearestWhole n * one) + one := by omega
  have hlowq : (2 * (nearestWhole n * one : Nat) : ℚ) ≤ 2 * gridPoint n + one := by
    exact_mod_cast hlow'
  have hhighq : (2 * gridPoint n : ℚ) ≤ 2 * (nearestWhole n * one : Nat) + one := by
    exact_mod_cast hhigh'
  rw [abs_magnitude_sub, div_le_iff₀ cast_one_pos, abs_le]
  constructor <;> linarith

/-- Half way the nearest whole number is the greater one. -/
theorem lt_nearestWhole_of_half (h : |magnitude n - nearestWhole n| = 1 / 2) :
    magnitude n < nearestWhole n := by
  have hhalf := two_mul_half_one
  have hhigh : gridPoint n + one / 2 < nearestWhole n * one + one :=
    Nat.lt_div_mul_add Binary64.one_pos
  have hnat : 2 * gridPoint n < 2 * (nearestWhole n * one) + one := by omega
  have hcast : (2 * gridPoint n : ℚ) < 2 * (nearestWhole n * one) + one := by exact_mod_cast hnat
  have hless : 2 * magnitude n < 2 * nearestWhole n + 1 := by
    rw [magnitude, ← mul_div_assoc, div_lt_iff₀ cast_one_pos]
    linarith
  by_contra hge
  rw [abs_of_nonneg (sub_nonneg.mpr (not_lt.mp hge))] at h
  linarith

/-- There is one whole number within less than a half. -/
theorem nearestWhole_eq {k : ℤ} (h : |magnitude n - k| < 1 / 2) : (nearestWhole n : ℤ) = k := by
  have hnearest := abs_magnitude_sub_nearestWhole_le n
  rw [abs_lt] at h
  rw [abs_le] at hnearest
  have hlow : ((nearestWhole n : ℤ) : ℚ) < k + 1 := by
    rw [Int.cast_natCast]
    linarith
  have hhigh : (k : ℚ) < (nearestWhole n : ℤ) + 1 := by
    rw [Int.cast_natCast]
    linarith
  norm_cast at hlow hhigh
  omega

theorem nearestWhole_of_gridPoint (h : gridPoint n = w * one) : nearestWhole n = w := by
  have hzero : |magnitude n - (w : ℤ)| < 1 / 2 := by
    rw [magnitude_eq_iff.mpr h, Int.cast_natCast, sub_self, abs_zero]
    exact one_half_pos
  exact_mod_cast nearestWhole_eq hzero

/-- The whole number next to a finite double is a finite double. -/
theorem exists_gridPoint_nearestWhole (hn : n < infinityIndex) :
    ∃ m, gridPoint m = nearestWhole n * one ∧ m < infinityIndex := by
  by_cases hwhole : ∃ w, gridPoint n = w * one
  · obtain ⟨w, hw⟩ := hwhole
    exact ⟨n, by rw [nearestWhole_of_gridPoint hw, hw], hn⟩
  · have hlt := gridPoint_lt_of_not_whole (not_exists.mp hwhole)
    have hle : nearestWhole n ≤ binade := by
      have hhalf := two_mul_half_one
      have hpos := Binary64.one_pos
      refine Nat.le_of_lt_succ ((Nat.div_lt_iff_lt_mul Binary64.one_pos).mpr ?_)
      rw [Nat.succ_mul]
      omega
    have hbinade := binade_pos
    obtain ⟨m, hm⟩ := exists_gridPoint_eq (w := nearestWhole n) (by omega)
    refine ⟨m, hm, ?_⟩
    have hgrid : gridPoint m < gridPoint infinityIndex := by
      obtain ⟨k, hk⟩ : ∃ k, k = 1024 := ⟨1024, rfl⟩
      rw [hm, gridPoint_infinityIndex hk]
      refine Nat.mul_lt_mul_of_pos_right (Nat.lt_of_le_of_lt hle ?_) Binary64.one_pos
      exact Nat.pow_lt_pow_right (m := 52) Nat.one_lt_two (by omega)
    exact Nat.lt_of_not_le fun h => Nat.not_lt.mpr (gridPoint_mono h) hgrid

theorem nearestWhole_mul_one_le (n : Nat) : nearestWhole n * one ≤ 2 * gridPoint n := by
  have hle : nearestWhole n * one ≤ gridPoint n + one / 2 := Nat.div_mul_le_self ..
  rcases Nat.eq_zero_or_pos (nearestWhole n) with hzero | hpos
  · rw [hzero, Nat.zero_mul]
    exact Nat.zero_le _
  · have hone := Nat.le_mul_of_pos_left one hpos
    omega

/-- The distance to the nearest whole number is a grid point: it is a number of the steps between
the double and its neighbours, and no greater than the double itself. -/
theorem exists_gridPoint_dist (n : Nat) :
    ∃ d ≤ n, gridPoint d = ((gridPoint n : ℤ) - (nearestWhole n * one : Nat)).natAbs := by
  by_cases hwhole : ∃ w, gridPoint n = w * one
  · obtain ⟨w, hw⟩ := hwhole
    refine ⟨0, Nat.zero_le n, ?_⟩
    rw [nearestWhole_of_gridPoint hw, hw, sub_self, gridPoint_zero, Int.natAbs_zero]
  · obtain ⟨k, m, h⟩ := exists_isIndex n
    have hgrid := h.gridPoint_eq
    obtain ⟨j, hone⟩ := exists_one_eq_mul h (not_exists.mp hwhole)
    have hdist : ((gridPoint n : ℤ) - (nearestWhole n * one : Nat)).natAbs =
        ((m : ℤ) - (nearestWhole n * 2 ^ j : Nat)).natAbs * 2 ^ k := by
      rw [hgrid, hone, ← Nat.mul_assoc, Nat.cast_mul m, Nat.cast_mul (_ * _), ← sub_mul,
        Int.natAbs_mul, Int.natAbs_natCast]
    have hm : nearestWhole n * 2 ^ j ≤ 2 * m := by
      have htwice := nearestWhole_mul_one_le n
      rw [hgrid, hone, ← Nat.mul_assoc, ← Nat.mul_assoc] at htwice
      exact Nat.le_of_mul_le_mul_right htwice (Nat.two_pow_pos k)
    have habs {a b : Nat} (hab : b ≤ 2 * a) : ((a : ℤ) - b).natAbs ≤ a := by omega
    have hu := habs hm
    obtain ⟨d, hd⟩ := exists_gridPoint_eq_mul (Nat.lt_of_le_of_lt hu h.lt) k
    refine ⟨d, Nat.le_of_not_lt fun hnd => ?_, by rw [hd, hdist]⟩
    have hle := Nat.mul_le_mul_right (2 ^ k) hu
    rw [← hd, ← hgrid] at hle
    exact Nat.not_lt.mpr hle (gridPoint_strictMono hnd)

theorem nearWhole_iff : NearWhole n ↔ |magnitude n - nearestWhole n| < tolerance / one := by
  rw [abs_magnitude_sub, div_lt_div_iff_of_pos_right cast_one_pos, abs_lt, NearWhole]
  constructor
  · rintro ⟨hlow, hhigh⟩
    have hlowq : (gridPoint n : ℚ) < (nearestWhole n * one : Nat) + tolerance := by
      exact_mod_cast hlow
    have hhighq : ((nearestWhole n * one : Nat) : ℚ) < gridPoint n + tolerance := by
      exact_mod_cast hhigh
    constructor <;> linarith
  · rintro ⟨hlow, hhigh⟩
    have hlowq : (gridPoint n : ℚ) < (nearestWhole n * one : Nat) + tolerance := by linarith
    have hhighq : ((nearestWhole n * one : Nat) : ℚ) < gridPoint n + tolerance := by linarith
    exact ⟨by exact_mod_cast hlowq, by exact_mod_cast hhighq⟩

theorem tolerance_bounds : 0 < tolerance ∧ 2 * tolerance < one := by decide +kernel

theorem tolerance_lt : (tolerance / one : ℚ) < 1 / 2 := by
  have hcast : (2 * tolerance : ℚ) < one := by exact_mod_cast tolerance_bounds.2
  rw [div_lt_iff₀ cast_one_pos]
  linarith

theorem nearWhole_iff_exists : NearWhole n ↔ ∃ k : ℤ, |magnitude n - k| < tolerance / one := by
  rw [nearWhole_iff]
  constructor
  · intro h
    exact ⟨nearestWhole n, by rwa [Int.cast_natCast]⟩
  · rintro ⟨k, hk⟩
    have hnearest := nearestWhole_eq (lt_trans hk tolerance_lt)
    rwa [← hnearest, Int.cast_natCast] at hk

theorem nearWhole_of_gridPoint (h : gridPoint n = w * one) : NearWhole n := by
  rw [NearWhole, nearestWhole_of_gridPoint h, h]
  have hpos := tolerance_bounds.1
  exact ⟨Nat.lt_add_of_pos_right hpos, Nat.lt_add_of_pos_right hpos⟩

end Layout

theorem isNearest_shortest (tie : Tie) {n : Nat} (hpos : 0 < n) (hfin : n < infinityIndex) :
    IsNearest n (shortest tie n).value := by
  have hindex := index_shortest tie hpos hfin
  have h := Decimal.isNearest_index (hindex ▸ hfin)
  rwa [hindex] at h

theorem exponent_shortest_neg {tie : Tie} {n : Nat} (hn : ¬ NearWhole n) (hfin : n < infinityIndex) :
    (shortest tie n).exponent < 0 := by
  have hfar (w : Nat) : gridPoint n ≠ w * one := fun h => hn (nearWhole_of_gridPoint h)
  have hpos : 0 < n := Nat.pos_of_ne_zero fun h => hfar 0 (by rw [h, gridPoint_zero, Nat.zero_mul])
  have hnearest := isNearest_shortest tie hpos hfin
  by_contra he
  obtain ⟨e, he⟩ := Int.eq_ofNat_of_zero_le (Int.le_of_not_gt he)
  obtain ⟨w, hw⟩ : ∃ w : Nat, (shortest tie n).value = w :=
    ⟨(shortest tie n).digits * 10 ^ e, by rw [Decimal.value, he]; norm_cast⟩
  obtain ⟨v, hv⟩ := exists_eq_of_isNearest (hw ▸ hnearest)
  exact hfar v hv

section Doubles

variable {x : Float} {negative : Bool} {n w : Nat}

theorem ofFloat_tolerance : ofFloat 1e-9 = .finite false (Decimal.index ⟨1, -9⟩) := by
  decide +kernel

theorem rational_tolerance : rational 1e-9 = tolerance / one := by
  rw [rational_of_ofFloat ofFloat_tolerance, if_neg Bool.false_ne_true, one_mul, tolerance,
    magnitude]

theorem rational_tolerance_pos : 0 < rational 1e-9 := by
  rw [rational_tolerance]
  exact div_pos (Nat.cast_pos.mpr tolerance_bounds.1) cast_one_pos

theorem farFromWhole_iff (h : ofFloat x = .finite negative n) : FarFromWhole x ↔ ¬ NearWhole n := by
  rw [nearWhole_iff_exists, FarFromWhole, rational_tolerance, rational_of_ofFloat h, not_exists]
  cases negative with
  | false => simp only [Bool.false_eq_true, if_false, one_mul, not_lt]
  | true =>
    have hneg (k : ℤ) : |-magnitude n - k| = |magnitude n - (-k : ℤ)| := by
      rw [← abs_neg, neg_sub, Int.cast_neg, sub_neg_eq_add, sub_neg_eq_add, add_comm]
    simp only [if_true, neg_one_mul, hneg, not_lt]
    exact ⟨fun h k => neg_neg k ▸ h (-k), fun h k => h (-k)⟩

theorem IsWhole.gridPoint_eq (hwhole : IsWhole x) (h : ofFloat x = .finite negative n) :
    gridPoint n = nearestWhole n * one := by
  obtain ⟨k, hk⟩ := hwhole
  have hgrid : gridPoint n = k.natAbs * one := by
    rw [← magnitude_eq_iff, Nat.cast_natAbs, Int.cast_abs, ← hk, rational_of_ofFloat h, abs_mul,
      abs_of_nonneg (magnitude_nonneg n)]
    cases negative <;> simp
  rw [nearestWhole_of_gridPoint hgrid, hgrid]

theorem isWhole_of_gridPoint (h : ofFloat x = .finite negative n) (hgrid : gridPoint n = w * one) :
    IsWhole x := by
  refine ⟨(if negative then -1 else 1) * w, ?_⟩
  rw [rational_of_ofFloat h, magnitude_eq_iff.mpr hgrid]
  cases negative <;> simp

theorem ofFloat_roundWhole (h : ofFloat x = .finite negative n) :
    ∃ m, ofFloat (roundWhole x) = .finite negative m ∧ gridPoint m = nearestWhole n * one := by
  obtain ⟨m, hm, hfin⟩ := exists_gridPoint_nearestWhole (lt_of_ofFloat h)
  have hindex : Decimal.index ⟨nearestWhole n, 0⟩ = m := by
    refine Decimal.index_of_isNearest ?_ hfin
    rw [Decimal.value, zpow_zero, mul_one, ← magnitude_eq_iff.mpr hm]
    exact isNearest_magnitude m
  have hfloat := ofFloat_floatOfIndex negative m
  rw [if_pos hfin] at hfloat
  refine ⟨m, ?_, hm⟩
  rw [roundWhole, h]
  simp only [hindex]
  exact hfloat

theorem roundWhole_of_not_isFinite (h : ¬ IsFinite x) : roundWhole x = x := by
  unfold IsFinite at h
  unfold roundWhole
  split
  · rename_i hx
    rw [hx] at h
    exact absurd rfl h
  · rfl

/-- What is rounded to is the nearest integer, and half way the one that is further from zero. -/
theorem isWhole_roundWhole (hx : IsFinite x) :
    IsFinite (roundWhole x) ∧ IsWhole (roundWhole x) ∧
      |rational x - rational (roundWhole x)| ≤ 1 / 2 ∧
      (|rational x - rational (roundWhole x)| = 1 / 2 →
        |rational x| < |rational (roundWhole x)|) := by
  obtain ⟨negative, n, h⟩ := exists_ofFloat hx
  obtain ⟨m, hm, hgrid⟩ := ofFloat_roundWhole h
  have hsign : |(if negative then -1 else 1 : ℚ)| = 1 := by cases negative <;> simp
  have hdist : |rational x - rational (roundWhole x)| = |magnitude n - nearestWhole n| := by
    rw [rational_of_ofFloat h, rational_of_ofFloat hm, ← mul_sub, abs_mul, hsign, one_mul,
      magnitude_eq_iff.mpr hgrid]
  rw [hdist, abs_rational_of_ofFloat h, abs_rational_of_ofFloat hm, magnitude_eq_iff.mpr hgrid]
  exact ⟨isFinite_of_ofFloat hm, isWhole_of_gridPoint hm hgrid,
    abs_magnitude_sub_nearestWhole_le n, lt_nearestWhole_of_half⟩

/-- The double nearest to the difference with the nearest whole number is this difference itself, so
that doubles test it as rational numbers do. -/
theorem abs_sub_roundWhole_lt_iff (h : ofFloat x = .finite negative n) :
    (x - roundWhole x).abs < 1e-9 ↔ NearWhole n := by
  obtain ⟨m, hm, hgrid⟩ := ofFloat_roundWhole h
  obtain ⟨d, hdn, hd⟩ := exists_gridPoint_dist n
  have hunits : (units negative n - units negative m).natAbs = gridPoint d := by
    rw [hd, units, units, hgrid]
    cases negative with
    | false => rfl
    | true =>
      show (-(gridPoint n : ℤ) - -((nearestWhole n * one : Nat) : ℤ)).natAbs = _
      rw [← neg_sub', Int.natAbs_neg]
  obtain ⟨s, hsub⟩ := ofFloat_sub h hm (Nat.lt_of_le_of_lt hdn (lt_of_ofFloat h)) hunits
  have hdist : magnitude d = |magnitude n - nearestWhole n| := by
    rw [abs_magnitude_sub, magnitude, hd, Nat.cast_natAbs]
    push_cast
    rfl
  have hlt := toNat_toBits_lt ofFloat_tolerance
  rw [abs_lt_iff (isFinite_of_ofFloat hsub) hlt, abs_rational_of_ofFloat hsub,
    rational_tolerance, hdist, nearWhole_iff]

theorem not_abs_sub_roundWhole_lt (h : ¬ IsFinite x) : ¬ (x - roundWhole x).abs < 1e-9 := by
  rw [roundWhole_of_not_isFinite h]
  rcases eq_of_not_isFinite h with rfl | rfl | rfl <;> decide

end Doubles

end Reckoner
