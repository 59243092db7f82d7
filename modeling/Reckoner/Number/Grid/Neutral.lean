import Reckoner.Number.Grid.Operations

/-!
# Zero and one as operands

A finite double stays what it is, down to the sign of a zero, when zero is taken from it
(`sub_zero_of_ofFloat`) and when it is divided by one (`div_one_of_ofFloat`). The significand of one
is a power of two, so the quotient of the significands leaves nothing over, and the index of the
quotient is the index of the dividend.
-/

namespace Reckoner.Binary64

open Float.Model (UnpackedFloat Format totalExponent)
open Float.Model.UnpackedFloat

section Unpacked

variable {n k m : Nat}

theorem sub_zero_unpacked (spec : Format) (u : UnpackedFloat) :
    UnpackedFloat.sub spec u (.zero .positive) = u := by
  cases u with
  | zero s => cases s <;> rfl
  | notANumber | infinity | finite => rfl

/-- The quotient is taken one bit further than the format goes, where it can go that far. -/
theorem divCore_one (h : IsIndex n k m) (hm : 0 < m) :
    divCore .binary64 m (k - 1074) binade (-52) =
      (m * 2 ^ (k - (k - 1)), ((k - 1 : Nat) : Int) - 1074, .exact) := by
  obtain ⟨-, hlt, hle⟩ := h
  have hlog : m.log2 < 53 := (Nat.log2_lt (Nat.ne_of_gt hm)).mpr hlt
  have hlog' : 0 < k → 52 ≤ m.log2 := fun hk => (Nat.le_log2 (Nat.ne_of_gt hm)).mpr (hle hk)
  have htarget : min ((k : Int) - 1074 - -52)
      (Format.binary64.targetExponent (totalExponent m (k - 1074) - totalExponent binade (-52))) =
        ((k - 1 : Nat) : Int) - 1074 := by
    show min _ (max ((m.log2 : Int) + 1 + (k - 1074) - 1 - 53) (-1074)) = _
    omega
  have hshift : ((k : Int) - 1074 - -52 - (((k - 1 : Nat) : Int) - 1074)).toNat =
      k - (k - 1) + 52 := by omega
  have hsplit : m <<< (k - (k - 1) + 52) = m * 2 ^ (k - (k - 1)) * binade := by
    rw [Nat.shiftLeft_eq, Nat.pow_add, ← Nat.mul_assoc]
    rfl
  have hpos : 0 < binade := by decide
  unfold divCore
  dsimp only
  rw [htarget, hshift, hsplit, Nat.mul_div_cancel _ hpos, Nat.mul_mod_left]
  rfl

theorem div_one_unpacked (h : IsIndex n k m) (s : Sign) (hone : 0 < binade) :
    UnpackedFloat.div .binary64 (scaled s k m) (.finite .positive binade (-52) hone) =
      scaled s k m := by
  have hsign : s / .positive = s := by cases s <;> rfl
  rcases Nat.eq_zero_or_pos m with rfl | hm
  · rw [scaled_zero]
    show UnpackedFloat.zero (s / .positive) = _
    rw [hsign]
  · have hj : m * 2 ^ (k - (k - 1)) * 2 ^ (k - 1) = m * 2 ^ k := by
      rw [Nat.mul_assoc, ← Nat.pow_add, Nat.sub_add_cancel (Nat.sub_le k 1)]
    have hround := roundWithAccuracy_eq (s := s) h hm hj (Nat.sub_le k 1)
    rw [scaled, dif_pos hm] at hround ⊢
    unfold UnpackedFloat.div
    dsimp only
    rw [divCore_one h hm, hsign]
    exact hround

end Unpacked

section Doubles

variable {x : Float} {negative : Bool} {n : Nat}

theorem toBits_eq_of_ofFloat (h : ofFloat x = .finite negative n) :
    UInt64.ofBitVec (UnpackedFloat.pack .binary64
      (UnpackedFloat.unpack .binary64 x.toBits.toBitVec)) = x.toBits := by
  have hle : x.toBits.toBitVec.toNat % signWeight ≤ infinityIndex :=
    (toNat_mod_of_ofFloat h).1 ▸ Nat.le_of_lt (lt_of_ofFloat h)
  rw [pack_unpack hle]

theorem sub_zero_of_ofFloat (h : ofFloat x = .finite negative n) : x - 0 = x := by
  have hbits : (x - 0).toBits = .ofBitVec (UnpackedFloat.pack .binary64
      (UnpackedFloat.sub .binary64 (UnpackedFloat.unpack .binary64 x.toBits.toBitVec)
        (.zero .positive))) := rfl
  rw [sub_zero_unpacked, toBits_eq_of_ofFloat h] at hbits
  exact toBits_inj hbits

theorem div_one_of_ofFloat (h : ofFloat x = .finite negative n) : x / 1 = x := by
  obtain ⟨k, m, hindex, hunpack⟩ := exists_unpack_of_ofFloat h
  have hbits : (x / 1).toBits = .ofBitVec (UnpackedFloat.pack .binary64
      (UnpackedFloat.div .binary64 (UnpackedFloat.unpack .binary64 x.toBits.toBitVec)
        (.finite .positive binade (-52) (by decide)))) := rfl
  rw [hunpack, div_one_unpacked hindex, ← hunpack, toBits_eq_of_ofFloat h] at hbits
  exact toBits_inj hbits

end Doubles

end Reckoner.Binary64
