import Reckoner.Number.Grid.Bits
import Reckoner.Number.Grid.Lemmas

/-!
# The order of doubles

Doubles without a sign are in the order of their indices (`lt_iff_index_lt`). A pattern is unpacked
to a shift and a significand, from which its index is made (`exists_unpack_eq_scaled`), and these
are compared one after the other.
-/

namespace Reckoner.Binary64

open Float.Model (UnpackedFloat)
open Float.Model.UnpackedFloat

/-- What is unpacked from a pattern with the significand `m`, shifted by `k`. -/
def scaled (s : Sign) (k m : Nat) : UnpackedFloat :=
  if h : 0 < m then .finite s m (k - 1074) h else .zero s

/-- A shift and a significand, which is as long as it can be unless there is no shift. -/
structure IsIndex (n k m : Nat) : Prop where
  index : n = k * binade + m
  lt : m < 2 * binade
  le : 0 < k → binade ≤ m

theorem exists_unpack_eq_scaled {b : BitVec 64} (h : b.toNat % signWeight < infinityIndex) :
    ∃ k m, IsIndex (b.toNat % signWeight) k m ∧
      UnpackedFloat.unpack .binary64 b = scaled (signField b) k m := by
  have hunpack := unpack_eq b
  have hexponent := toNat_exponentField b
  have hmantissa := toNat_mantissaField b
  rw [infinityIndex, signWeight_eq, binade_eq] at h
  rw [binade_eq] at hexponent hmantissa
  have hne : exponentField b ≠ -1#11 := by
    intro heq
    have h2047 : (exponentField b).toNat = 2047 := congrArg BitVec.toNat heq
    omega
  rw [if_neg hne] at hunpack
  by_cases h0 : exponentField b = 0#11
  · have hzero : (exponentField b).toNat = 0 := congrArg BitVec.toNat h0
    refine ⟨0, (mantissaField b).toNat, ⟨?_, ?_, fun h => absurd h (Nat.lt_irrefl 0)⟩, ?_⟩
    · rw [signWeight_eq, binade_eq]
      omega
    · rw [binade_eq]
      omega
    · rw [hunpack, if_pos h0, scaled, hzero]
      by_cases hm : mantissaField b = 0#52
      · rw [dif_pos hm, dif_neg (by simp [hm])]
      · have hpos : 0 < (mantissaField b).toNat :=
          Nat.pos_of_ne_zero fun h => hm (BitVec.eq_of_toNat_eq h)
        rw [dif_neg hm, dif_pos hpos]
        rfl
  · have hpos : 0 < (exponentField b).toNat :=
      Nat.pos_of_ne_zero fun h => h0 (BitVec.eq_of_toNat_eq h)
    refine ⟨(exponentField b).toNat - 1, (1#1 ++ mantissaField b).toNat, ⟨?_, ?_, fun _ => ?_⟩, ?_⟩
    · rw [toNat_implicit_append, signWeight_eq, binade_eq]
      omega
    · rw [toNat_implicit_append, binade_eq]
      omega
    · rw [toNat_implicit_append]
      exact Nat.le_add_right ..
    · have hshift : ((exponentField b).toNat : Int) - (1023 + 52) =
          ((exponentField b).toNat - 1 : Nat) - 1074 := by omega
      rw [hunpack, if_neg h0, scaled, dif_pos (implicit_append_pos _), hshift]

theorem lt_scaled_iff {n n' k k' m m' : Nat} (h : IsIndex n k m) (h' : IsIndex n' k' m') :
    (scaled .positive k m).lt (scaled .positive k' m') = true ↔ n < n' := by
  obtain ⟨rfl, hlt, hle⟩ := h
  obtain ⟨rfl, hlt', hle'⟩ := h'
  -- a greater shift outweighs the significands, as these are within one binade of each other
  rw [binade_eq] at hlt hle hlt' hle' ⊢
  unfold scaled
  by_cases hm : 0 < m
  · by_cases hm' : 0 < m'
    · rw [dif_pos hm, dif_pos hm']
      show (some ((compare ((k : Int) - 1074) (k' - 1074)).then (compare m m')) == some .lt) = true ↔
        _
      simp only [beq_iff_eq, Option.some.injEq, Ordering.then_eq_lt, Int.compare_eq_lt,
        Int.compare_eq_eq, Nat.compare_eq_lt]
      omega
    · rw [dif_pos hm, dif_neg hm']
      exact iff_of_false Bool.false_ne_true (by omega)
  · by_cases hm' : 0 < m'
    · rw [dif_neg hm, dif_pos hm']
      exact iff_of_true rfl (by omega)
    · rw [dif_neg hm, dif_neg hm']
      exact iff_of_false Bool.false_ne_true (by omega)

theorem exists_unpack_eq_positive {x : Float} (h : x.toBits.toNat < infinityIndex) :
    ∃ k m, IsIndex x.toBits.toNat k m ∧
      UnpackedFloat.unpack .binary64 x.toBits.toBitVec = scaled .positive k m := by
  have hlt : x.toBits.toBitVec.toNat < signWeight := Nat.lt_trans h (by decide)
  have hmod := Nat.mod_eq_of_lt hlt
  obtain ⟨k, m, hindex, hunpack⟩ :=
    exists_unpack_eq_scaled (b := x.toBits.toBitVec) (by rw [hmod]; exact h)
  rw [hmod] at hindex
  rw [signField_eq_positive hlt] at hunpack
  exact ⟨k, m, hindex, hunpack⟩

theorem lt_iff_index_lt {x y : Float} (hx : x.toBits.toNat < infinityIndex)
    (hy : y.toBits.toNat < infinityIndex) : x < y ↔ x.toBits.toNat < y.toBits.toNat := by
  obtain ⟨k, m, hindex, hunpack⟩ := exists_unpack_eq_positive hx
  obtain ⟨k', m', hindex', hunpack'⟩ := exists_unpack_eq_positive hy
  have hlt : x < y ↔ (UnpackedFloat.unpack .binary64 x.toBits.toBitVec).lt
      (UnpackedFloat.unpack .binary64 y.toBits.toBitVec) = true :=
    decide_eq_true_iff (p := x.toModel < y.toModel)
  rw [hlt, hunpack, hunpack']
  exact lt_scaled_iff hindex hindex'

end Reckoner.Binary64
