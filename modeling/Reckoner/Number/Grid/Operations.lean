import Reckoner.Number.Grid.Order

/-!
# Differences that are doubles

A difference of doubles that is a grid point is not rounded (`ofFloat_sub`): what is rounded to the
format then keeps all its bits (`round_eq_scaled`), wherever its leading bit is.
-/

namespace Reckoner.Binary64

open Float.Model (UnpackedFloat Format totalExponent)
open Float.Model.UnpackedFloat

/-! ### Rounding what is exact -/

section Rounding

variable {n k m k' m' j i : Nat} {s : Sign}

theorem IsIndex.eq (h : IsIndex n k m) (h' : IsIndex n k' m') : k = k' ∧ m = m' := by
  obtain ⟨rfl, hlt, hle⟩ := h
  obtain ⟨heq, hlt', hle'⟩ := h'
  rw [binade_eq] at hlt hle hlt' hle' heq
  omega

theorem exists_isIndex (n : Nat) : ∃ k m, IsIndex n k m := by
  by_cases h : binade ≤ n
  · obtain ⟨k, m, hm, hm', hn⟩ := exists_eq_add h
    exact ⟨k, m, hn, hm', fun _ => hm⟩
  · exact ⟨0, n, by omega, by omega, fun h => absurd h (Nat.lt_irrefl 0)⟩

theorem IsIndex.gridPoint_eq (h : IsIndex n k m) : gridPoint n = m * 2 ^ k := by
  obtain ⟨rfl, hlt, hle⟩ := h
  rw [← Nat.shiftLeft_eq]
  by_cases hk : 0 < k
  · exact gridPoint_add (hle hk) hlt
  · obtain rfl : k = 0 := Nat.eq_zero_of_not_pos hk
    rw [Nat.zero_mul, Nat.zero_add, gridPoint_of_lt hlt, Nat.shiftLeft_zero]

theorem log2_mul_two_pow (hm : m ≠ 0) (k : Nat) : (m * 2 ^ k).log2 = m.log2 + k := by
  have hne : m * 2 ^ k ≠ 0 := Nat.mul_ne_zero hm (Nat.ne_of_gt (Nat.two_pow_pos k))
  rw [Nat.log2_eq_iff hne]
  have hlow := Nat.mul_le_mul_right (2 ^ k) (Nat.log2_self_le hm)
  have hhigh := Nat.mul_lt_mul_of_pos_right (Nat.lt_log2_self (n := m)) (Nat.two_pow_pos k)
  rw [← Nat.pow_add] at hlow hhigh
  rw [Nat.add_right_comm] at hhigh
  exact ⟨hlow, hhigh⟩

/-- The exponent that the format gives to a number is the one of its index. -/
theorem IsIndex.targetExponent_eq (h : IsIndex n k m) (hm : 0 < m) (hj : j * 2 ^ i = m * 2 ^ k) :
    Format.binary64.targetExponent (totalExponent j (i - 1074)) = k - 1074 := by
  have hj0 : j ≠ 0 := by
    rintro rfl
    rw [Nat.zero_mul] at hj
    exact absurd hj.symm (Nat.ne_of_gt (Nat.mul_pos hm (Nat.two_pow_pos k)))
  have hlog := log2_mul_two_pow hj0 i
  rw [hj, log2_mul_two_pow (Nat.ne_of_gt hm)] at hlog
  have htarget : Format.binary64.targetExponent (totalExponent j (i - 1074)) =
      max ((j.log2 : Int) + 1 + (i - 1074) - 53) (-1074) := rfl
  have hlt : m.log2 < 53 := (Nat.log2_lt (Nat.ne_of_gt hm)).mpr h.lt
  have hle : 0 < k → 52 ≤ m.log2 := fun hk => (Nat.le_log2 (Nat.ne_of_gt hm)).mpr (h.le hk)
  rw [htarget]
  omega

theorem shiftRight_mul_two_pow (m t : Nat) :
    (ExtendedMantissa.mk (m * 2 ^ t) false false) >>> t = ⟨m, false, false⟩ := by
  induction t generalizing m with
  | zero =>
    rw [Nat.pow_zero, Nat.mul_one]
    rfl
  | succ t ih =>
    have hsplit : m * 2 ^ (t + 1) = 2 * m * 2 ^ t := by
      rw [Nat.pow_succ, Nat.mul_comm (2 ^ t), ← Nat.mul_assoc, Nat.mul_comm m]
    show ExtendedMantissa.shiftRightOne (ExtendedMantissa.mk (m * 2 ^ (t + 1)) false false >>> t) = _
    rw [hsplit, ih]
    simp [ExtendedMantissa.shiftRightOne]

theorem shiftToTargetExponent_eq (h : IsIndex n k m) (hm : 0 < m) (hj : j * 2 ^ i = m * 2 ^ k)
    (hi : i ≤ k) : shiftToTargetExponent .binary64 j (i - 1074) .exact =
      (⟨m, false, false⟩, (k : Int) - 1074) := by
  obtain ⟨t, rfl⟩ : ∃ t, k = i + t := ⟨k - i, by omega⟩
  have hshift : (((i + t : Nat) : Int) - 1074 - (i - 1074)).toNat = t := by omega
  have hexponent : (i : Int) - 1074 + t = (i + t : Nat) - 1074 := by omega
  obtain rfl : j = m * 2 ^ t := by
    rw [Nat.add_comm i, Nat.pow_add, ← Nat.mul_assoc] at hj
    exact Nat.eq_of_mul_eq_mul_right (Nat.two_pow_pos i) hj
  unfold shiftToTargetExponent shiftToExponent
  rw [h.targetExponent_eq hm hj]
  simp only [hshift, hexponent, ExtendedMantissa.ofMantissaAndAccuracy, shiftRight_mul_two_pow]

theorem roundWithAccuracy_eq (h : IsIndex n k m) (hm : 0 < m) (hj : j * 2 ^ i = m * 2 ^ k)
    (hi : i ≤ k) : roundWithAccuracy .binary64 s j (i - 1074) .exact = scaled s k m := by
  have hround : (ExtendedMantissa.mk m false false).roundedMantissa = m := rfl
  unfold roundWithAccuracy
  rw [shiftToTargetExponent_eq h hm hj hi]
  dsimp only
  rw [hround, shiftToTargetExponent_eq h hm rfl (Nat.le_refl k)]
  dsimp only
  rw [dif_neg (Nat.ne_of_gt hm), scaled, dif_pos hm]

/-- A number with an index is rounded to what the double with this index is unpacked to. -/
theorem round_eq_scaled (h : IsIndex n k m) (hm : 0 < m) (hj : j * 2 ^ i = m * 2 ^ k) :
    UnpackedFloat.round .binary64 s j (i - 1074) = scaled s k m := by
  unfold UnpackedFloat.round decreaseExponent
  simp only [h.targetExponent_eq hm hj]
  by_cases hi : i ≤ k
  · have hshift : ((i : Int) - 1074 - (k - 1074)).toNat = 0 := by omega
    simp only [hshift, Nat.shiftLeft_zero, Int.natCast_zero, Int.sub_zero]
    exact roundWithAccuracy_eq h hm hj hi
  · obtain ⟨t, rfl⟩ : ∃ t, i = k + t := ⟨i - k, by omega⟩
    have hshift : (((k + t : Nat) : Int) - 1074 - (k - 1074)).toNat = t := by omega
    have hexponent : ((k + t : Nat) : Int) - 1074 - t = k - 1074 := by omega
    simp only [hshift, hexponent, Nat.shiftLeft_eq]
    refine roundWithAccuracy_eq h hm ?_ (Nat.le_refl k)
    rw [← hj, Nat.mul_assoc, ← Nat.pow_add, Nat.add_comm t]

theorem exists_normalize_eq (h : IsIndex n k m) {d : Int} (hd : d.natAbs * 2 ^ i = m * 2 ^ k) :
    ∃ s, UnpackedFloat.normalize .binary64 d (i - 1074) .positive = scaled s k m := by
  have hpow (t : Nat) : 2 ^ t ≠ 0 := Nat.ne_of_gt (Nat.two_pow_pos t)
  by_cases hzero : d = 0
  · subst hzero
    obtain rfl : m = 0 := by
      rw [Int.natAbs_zero, Nat.zero_mul] at hd
      exact (Nat.mul_eq_zero.mp hd.symm).resolve_right (hpow k)
    exact ⟨.positive, rfl⟩
  · have hm : 0 < m := by
      refine Nat.pos_of_ne_zero ?_
      rintro rfl
      rw [Nat.zero_mul] at hd
      exact hzero (Int.natAbs_eq_zero.mp ((Nat.mul_eq_zero.mp hd).resolve_right (hpow i)))
    unfold UnpackedFloat.normalize
    by_cases hneg : d < 0
    · have hnat : (-d).toNat = d.natAbs := by omega
      rw [Int.compare_eq_lt.mpr hneg, hnat]
      exact ⟨.negative, round_eq_scaled h hm hd⟩
    · have hnat : d.toNat = d.natAbs := by omega
      rw [Int.compare_eq_gt.mpr (by omega), hnat]
      exact ⟨.positive, round_eq_scaled h hm hd⟩

end Rounding

/-! ### Subtraction -/

section Subtraction

variable {n k m n₁ k₁ m₁ n₂ k₂ m₂ : Nat} {s s₁ s₂ : Sign}

theorem gridPoint_injective (h : gridPoint n₁ = gridPoint n₂) : n₁ = n₂ := by
  rcases Nat.lt_trichotomy n₁ n₂ with hlt | heq | hgt
  · exact absurd h (Nat.ne_of_lt (gridPoint_strictMono hlt))
  · exact heq
  · exact absurd h (Nat.ne_of_gt (gridPoint_strictMono hgt))

theorem apply_mul (s : Sign) (d e : Int) : s.apply (d * e) = s.apply d * e := by
  cases s with
  | negative => exact (Int.neg_mul d e).symm
  | positive => rfl

theorem scaled_zero (s : Sign) (k : Nat) : scaled s k 0 = .zero s := rfl

theorem IsIndex.eq_of_gridPoint (h₁ : IsIndex n₁ k₁ m₁) (h₂ : IsIndex n₂ k₂ m₂)
    (h : gridPoint n₁ = gridPoint n₂) : k₁ = k₂ ∧ m₁ = m₂ := by
  rw [gridPoint_injective h] at h₁
  exact h₁.eq h₂

/-- Both significands are brought to the smaller of the two exponents, where their difference is a
whole number. -/
theorem exists_sub_eq_of_pos (h₁ : IsIndex n₁ k₁ m₁) (h₂ : IsIndex n₂ k₂ m₂) (h : IsIndex n k m)
    (hm₁ : 0 < m₁) (hm₂ : 0 < m₂)
    (hd : (s₁.apply (gridPoint n₁) - s₂.apply (gridPoint n₂)).natAbs = gridPoint n) :
    ∃ s, UnpackedFloat.sub .binary64 (scaled s₁ k₁ m₁) (scaled s₂ k₂ m₂) = scaled s k m := by
  obtain ⟨i, hi⟩ : ∃ i : Nat, i = min k₁ k₂ := ⟨_, rfl⟩
  have hmin : min ((k₁ : Int) - 1074) (k₂ - 1074) = i - 1074 := by omega
  have hshift₁ : ((k₁ : Int) - 1074 - (i - 1074)).toNat = k₁ - i := by omega
  have hshift₂ : ((k₂ : Int) - 1074 - (i - 1074)).toNat = k₂ - i := by omega
  rw [scaled, dif_pos hm₁, scaled, dif_pos hm₂]
  unfold UnpackedFloat.sub decreaseExponent
  dsimp only
  rw [hmin, hshift₁, hshift₂]
  refine exists_normalize_eq h ?_
  have hscale {n k m : Nat} (h : IsIndex n k m) (hk : i ≤ k) :
      (gridPoint n : Int) = (m <<< (k - i) : Nat) * (2 ^ i : Nat) := by
    rw [h.gridPoint_eq, Nat.shiftLeft_eq, ← Int.natCast_mul, Nat.mul_assoc, ← Nat.pow_add,
      Nat.sub_add_cancel hk]
  rw [hscale h₁ (by omega), hscale h₂ (by omega), apply_mul, apply_mul, ← Int.sub_mul,
    Int.natAbs_mul, Int.natAbs_natCast, h.gridPoint_eq] at hd
  exact hd

/-- The difference of two doubles is not rounded if it is, without its sign, a grid point. -/
theorem exists_sub_eq (h₁ : IsIndex n₁ k₁ m₁) (h₂ : IsIndex n₂ k₂ m₂) (h : IsIndex n k m)
    (hd : (s₁.apply (gridPoint n₁) - s₂.apply (gridPoint n₂)).natAbs = gridPoint n) :
    ∃ s, UnpackedFloat.sub .binary64 (scaled s₁ k₁ m₁) (scaled s₂ k₂ m₂) = scaled s k m := by
  rcases Nat.eq_zero_or_pos m₂ with rfl | hm₂
  · rw [h₂.gridPoint_eq, Nat.zero_mul] at hd
    have hgrid : gridPoint n₁ = gridPoint n := by
      rw [← hd]
      cases s₁ <;> cases s₂ <;> simp [Sign.apply]
    obtain ⟨rfl, rfl⟩ := h₁.eq_of_gridPoint h hgrid
    rcases Nat.eq_zero_or_pos m₁ with rfl | hm₁
    · cases s₁ <;> cases s₂ <;> exact ⟨_, rfl⟩
    · exact ⟨s₁, by rw [scaled, dif_pos hm₁]; rfl⟩
  · rcases Nat.eq_zero_or_pos m₁ with rfl | hm₁
    · rw [h₁.gridPoint_eq, Nat.zero_mul] at hd
      have hgrid : gridPoint n₂ = gridPoint n := by
        rw [← hd]
        cases s₁ <;> cases s₂ <;> simp [Sign.apply]
      obtain ⟨rfl, rfl⟩ := h₂.eq_of_gridPoint h hgrid
      exact ⟨-s₂, by rw [scaled_zero, scaled, dif_pos hm₂, scaled, dif_pos hm₂]; rfl⟩
    · exact exists_sub_eq_of_pos h₁ h₂ h hm₁ hm₂ hd

end Subtraction

/-! ### Doubles -/

section Doubles

variable {x y : Float} {negative negative₁ negative₂ : Bool} {n n₁ n₂ k m : Nat} {s : Sign}

def signOf (negative : Bool) : Sign :=
  if negative then .negative else .positive

/-- A double as a number of units, with its sign. -/
def units (negative : Bool) (n : Nat) : Int :=
  (signOf negative).apply (gridPoint n)

theorem toNat_mod_of_ofFloat (h : ofFloat x = .finite negative n) :
    x.toBits.toNat % signWeight = n ∧ decide (signWeight ≤ x.toBits.toNat) = negative := by
  unfold ofFloat at h
  simp only at h
  split at h
  · cases h
    exact ⟨rfl, rfl⟩
  · split at h <;> cases h

theorem toNat_toBits_lt (h : ofFloat x = .finite false n) : x.toBits.toNat < infinityIndex := by
  obtain ⟨hmod, hsign⟩ := toNat_mod_of_ofFloat h
  rw [Nat.mod_eq_of_lt (Nat.lt_of_not_le (of_decide_eq_false hsign))] at hmod
  exact hmod ▸ lt_of_ofFloat h

theorem signField_of_ofFloat (h : ofFloat x = .finite negative n) :
    signField x.toBits.toBitVec = signOf negative := by
  obtain ⟨-, hsign⟩ := toNat_mod_of_ofFloat h
  have hnat : (signField x.toBits.toBitVec).toBitVec.toNat = x.toBits.toNat / signWeight :=
    toNat_signField _
  rw [← hsign]
  by_cases hlt : x.toBits.toNat < signWeight
  · rw [signField_eq_positive hlt, decide_eq_false (Nat.not_le.mpr hlt)]
    rfl
  · rw [decide_eq_true (Nat.le_of_not_lt hlt)]
    have hpos := Nat.div_pos (Nat.le_of_not_lt hlt) (by decide : 0 < signWeight)
    cases hs : signField x.toBits.toBitVec with
    | negative => rfl
    | positive =>
      rw [hs] at hnat
      exact absurd hnat.symm (Nat.ne_of_gt hpos)

theorem exists_unpack_of_ofFloat (h : ofFloat x = .finite negative n) :
    ∃ k m, IsIndex n k m ∧
      UnpackedFloat.unpack .binary64 x.toBits.toBitVec = scaled (signOf negative) k m := by
  have hbits : x.toBits.toBitVec.toNat % signWeight = n := (toNat_mod_of_ofFloat h).1
  have hfin := lt_of_ofFloat h
  obtain ⟨k, m, hindex, hunpack⟩ :=
    exists_unpack_eq_scaled (b := x.toBits.toBitVec) (hbits.symm ▸ hfin)
  rw [hbits] at hindex
  exact ⟨k, m, hindex, signField_of_ofFloat h ▸ hunpack⟩

/-- The minus changes the sign and nothing else. -/
theorem ofFloat_neg (h : ofFloat x = .finite negative n) : ofFloat (-x) = .finite (!negative) n := by
  have hbits : x.toBits.toBitVec.toNat % signWeight = n := (toNat_mod_of_ofFloat h).1
  have hfin := lt_of_ofFloat h
  obtain ⟨f, hunpack, hf, hpack⟩ :=
    exists_unpack_eq (b := x.toBits.toBitVec) (hbits.symm ▸ Nat.le_of_lt hfin)
  have hneg : (-x).toBits.toNat = (-signOf negative).toBitVec.toNat * signWeight + n := by
    have htoBits : (-x).toBits = .ofBitVec (UnpackedFloat.pack .binary64
        (UnpackedFloat.unpack .binary64 x.toBits.toBitVec).neg) := rfl
    rw [htoBits, hunpack, (hf _).1, hpack, signField_of_ofFloat h]
    show (ofFields _ _ _).toNat = _
    rw [toNat_ofFields_sign, hbits]
  have hlt : n < signWeight := Nat.lt_trans hfin (by decide)
  unfold ofFloat
  simp only [hneg]
  cases negative with
  | false =>
    have hone : (-signOf false).toBitVec.toNat = 1 := rfl
    rw [hone, Nat.one_mul, Nat.add_mod_left, Nat.mod_eq_of_lt hlt, if_pos hfin,
      decide_eq_true (Nat.le_add_right ..)]
    rfl
  | true =>
    have hzero : (-signOf true).toBitVec.toNat = 0 := rfl
    rw [hzero, Nat.zero_mul, Nat.zero_add, Nat.mod_eq_of_lt hlt, if_pos hfin,
      decide_eq_false (Nat.not_le.mpr hlt)]
    rfl

/-- The pattern that is packed from a shift and a significand is the double with their index. -/
theorem exists_ofFloat_of_pack (h : IsIndex n k m) (hn : n < infinityIndex)
    (hx : x.toBits = .ofBitVec (UnpackedFloat.pack .binary64 (scaled s k m))) :
    ∃ negative, ofFloat x = .finite negative n := by
  obtain ⟨negative, rfl⟩ : ∃ negative, s = signOf negative := by
    cases s
    · exact ⟨true, rfl⟩
    · exact ⟨false, rfl⟩
  have hfloat := ofFloat_floatOfIndex negative n
  rw [if_pos hn] at hfloat
  obtain ⟨k', m', h', hunpack⟩ := exists_unpack_of_ofFloat hfloat
  obtain ⟨rfl, rfl⟩ := h.eq h'
  have hbits := Nat.le_of_eq (toNat_mod_of_ofFloat hfloat).1
  rw [← hunpack, pack_unpack (Nat.le_trans hbits (Nat.le_of_lt hn))] at hx
  exact ⟨negative, toBits_inj hx ▸ hfloat⟩

/-- A difference that is a grid point is exact. -/
theorem ofFloat_sub (hx : ofFloat x = .finite negative₁ n₁) (hy : ofFloat y = .finite negative₂ n₂)
    (hn : n < infinityIndex)
    (hd : (units negative₁ n₁ - units negative₂ n₂).natAbs = gridPoint n) :
    ∃ negative, ofFloat (x - y) = .finite negative n := by
  obtain ⟨k₁, m₁, h₁, hunpack₁⟩ := exists_unpack_of_ofFloat hx
  obtain ⟨k₂, m₂, h₂, hunpack₂⟩ := exists_unpack_of_ofFloat hy
  obtain ⟨k, m, h⟩ := exists_isIndex n
  obtain ⟨s, hsub⟩ := exists_sub_eq h₁ h₂ h hd
  have hbits : (x - y).toBits = .ofBitVec (UnpackedFloat.pack .binary64
      (UnpackedFloat.sub .binary64 (UnpackedFloat.unpack .binary64 x.toBits.toBitVec)
        (UnpackedFloat.unpack .binary64 y.toBits.toBitVec))) := rfl
  rw [hunpack₁, hunpack₂, hsub] at hbits
  exact exists_ofFloat_of_pack h hn hbits

end Doubles

end Reckoner.Binary64
