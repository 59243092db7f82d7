import Mathlib.Algebra.BigOperators.Group.List.Basic
import Mathlib.Algebra.Order.Field.Rat
import Mathlib.Algebra.Order.Ring.Abs
import Mathlib.Tactic.Positivity
import Reckoner.Number.Grid.Order

/-!
# Doubles as rational numbers

A finite double is a rational number, `rational x`. An operation is exact where its result
represents what the operation gives on rational numbers. `SumsExactly` says so of every addition of
a sum, which then represents the sum of the rational numbers (`represents_foldl`). The order of
doubles is the order of the rational numbers (`abs_lt_iff`).
-/

namespace Reckoner

namespace Binary64

def isFinite : Binary64 → Bool
  | finite _ _ => true
  | nan | infinite _ => false

/-- The number that is described. Only a finite double is one, and zero stands in for the others. -/
def rational : Binary64 → ℚ
  | finite negative n => (if negative then -1 else 1) * ((gridPoint n : ℚ) / (one : ℚ))
  | nan | infinite _ => 0

theorem one_pos : 0 < one := by
  have hpos (k : Nat) : 0 < 1 <<< k := by
    rw [Nat.one_shiftLeft]
    exact Nat.two_pow_pos k
  rw [one]
  exact hpos 1074

end Binary64

open Binary64

def IsFinite (x : Float) : Prop :=
  (ofFloat x).isFinite = true

instance (x : Float) : Decidable (IsFinite x) := inferInstanceAs (Decidable (_ = _))

def rational (x : Float) : ℚ :=
  (ofFloat x).rational

/-- A double is a number itself, and not only near to it. -/
structure Represents (x : Float) (q : ℚ) : Prop where
  isFinite : IsFinite x
  rational_eq : rational x = q

/-- No addition is rounded where doubles are added up one after the other, from `sum` on. -/
def SumsExactly (sum : Float) : List Float → Prop
  | [] => True
  | v :: vs => Represents (sum + v) (rational sum + rational v) ∧ SumsExactly (sum + v) vs

variable {x y : Float}

theorem isFinite_iff : IsFinite x ↔ x.toBits.toNat % signWeight < infinityIndex := by
  unfold IsFinite ofFloat
  simp only
  split
  · exact iff_of_true rfl ‹_›
  · split <;> exact iff_of_false nofun ‹_›

theorem isFinite_of_ofFloat {negative : Bool} {n : Nat} (h : ofFloat x = .finite negative n) : IsFinite x := by
  rw [IsFinite, h]
  rfl

theorem exists_ofFloat (h : IsFinite x) : ∃ negative n, ofFloat x = .finite negative n := by
  unfold IsFinite at h
  cases hx : ofFloat x with
  | finite negative n => exact ⟨negative, n, rfl⟩
  | nan =>
    rw [hx] at h
    cases h
  | infinite negative =>
    rw [hx] at h
    cases h

theorem eq_of_not_isFinite (h : ¬ IsFinite x) :
    x = notANumber ∨ x = infinity ∨ x = -infinity := by
  have hfloat := toFloat_ofFloat x
  unfold IsFinite at h
  cases hx : ofFloat x with
  | nan =>
    rw [hx] at hfloat
    exact .inl hfloat.symm
  | infinite negative =>
    rw [hx] at hfloat
    cases negative
    · exact .inr (.inl hfloat.symm)
    · exact .inr (.inr hfloat.symm)
  | finite negative n =>
    rw [hx] at h
    exact absurd rfl h

theorem IsFinite.neg (h : IsFinite x) : IsFinite (-x) := by
  rw [isFinite_iff] at h ⊢
  rwa [toNat_toBits_neg_mod (Nat.le_of_lt h)]

theorem ofFloat_zero : ofFloat 0 = .finite false 0 := rfl

theorem isFinite_zero : IsFinite 0 := by
  rw [IsFinite, ofFloat_zero]
  rfl

theorem rational_zero : rational 0 = 0 := by
  rw [rational, ofFloat_zero, Binary64.rational, gridPoint_zero]
  simp

theorem abs_rational (h : IsFinite x) :
    |rational x| = gridPoint (x.toBits.toNat % signWeight) / one := by
  have hlt := isFinite_iff.mp h
  have hfloat : ofFloat x =
      .finite (decide (signWeight ≤ x.toBits.toNat)) (x.toBits.toNat % signWeight) := by
    unfold ofFloat
    simp only
    rw [if_pos hlt]
  have hnonneg : (0 : ℚ) ≤ gridPoint (x.toBits.toNat % signWeight) / one := by positivity
  rw [rational, hfloat, Binary64.rational, abs_mul, abs_of_nonneg hnonneg]
  split <;> simp

theorem rational_of_lt (h : x.toBits.toNat < infinityIndex) :
    rational x = gridPoint x.toBits.toNat / one := by
  have hlt : x.toBits.toNat < signWeight := Nat.lt_trans h (by decide)
  have hfloat : ofFloat x = .finite false x.toBits.toNat := by
    unfold ofFloat
    simp only
    rw [Nat.mod_eq_of_lt hlt, if_pos h, decide_eq_false (Nat.not_le.mpr hlt)]
  rw [rational, hfloat, Binary64.rational]
  simp

theorem rational_pos (h : x.toBits.toNat < infinityIndex) (hpos : 0 < x.toBits.toNat) :
    0 < rational x := by
  have hgrid := gridPoint_strictMono hpos
  rw [gridPoint_zero] at hgrid
  rw [rational_of_lt h]
  exact div_pos (Nat.cast_pos.mpr hgrid) (Nat.cast_pos.mpr Binary64.one_pos)

/-- Doubles are compared as the numbers that they are. -/
theorem abs_lt_iff (hx : IsFinite x) (hy : y.toBits.toNat < infinityIndex) :
    x.abs < y ↔ |rational x| < rational y := by
  have hindex := isFinite_iff.mp hx
  have habs := toNat_toBits_abs (Nat.le_of_lt hindex)
  have hone : (0 : ℚ) < one := Nat.cast_pos.mpr Binary64.one_pos
  rw [lt_iff_index_lt (habs ▸ hindex) hy, habs, abs_rational hx, rational_of_lt hy,
    div_lt_div_iff_of_pos_right hone, Nat.cast_lt]
  constructor
  · exact gridPoint_strictMono
  · intro hlt
    by_contra hle
    exact absurd hlt (Nat.not_lt.mpr (gridPoint_mono (Nat.le_of_not_lt hle)))

theorem represents_foldl {sum : Float} {vs : List Float} (hsum : IsFinite sum)
    (h : SumsExactly sum vs) :
    Represents (vs.foldl (· + ·) sum) (rational sum + (vs.map rational).sum) := by
  induction vs generalizing sum with
  | nil => exact ⟨hsum, by simp⟩
  | cons v vs ih =>
    obtain ⟨hadd, hrest⟩ := h
    have hfoldl := ih hadd.isFinite hrest
    rw [hadd.rational_eq, add_assoc] at hfoldl
    exact hfoldl

end Reckoner
