import Reckoner.Number.Grid.Basic

/-!
# Doubles and their bits

`toFloat_ofFloat`: a double is known from its sign and its index on the grid, and there is one
double that is no number. The index of the double made for it is read back
(`toNat_toBits_floatOfIndex`), and a minus turns the sign bit on and changes no other
(`toNat_toBits_neg`); to take the absolute value turns it off (`toNat_toBits_abs`).

All of this rests on one fact about the patterns of 64 bits: what a pattern is unpacked to is packed
to the same pattern again, also with the other sign (`exists_unpack_eq`).
-/

namespace Reckoner.Binary64

open Float.Model (UnpackedFloat Format)
open Float.Model.UnpackedFloat

/-! ### The fields of a pattern -/

def signField (b : BitVec 64) : Sign := .ofBitVec (@unpackSign .binary64 b)

def exponentField (b : BitVec 64) : BitVec 11 := @unpackExponent .binary64 b

def mantissaField (b : BitVec 64) : BitVec 52 := @unpackMantissa .binary64 b

def ofFields (s : Sign) (e : BitVec 11) (m : BitVec 52) : BitVec 64 :=
  packComponents .binary64 s e m

theorem signWeight_eq : signWeight = 9223372036854775808 := rfl

theorem binade_eq : binade = 4503599627370496 := rfl

theorem toNat_ofFields (s : Sign) (e : BitVec 11) (m : BitVec 52) :
    (ofFields s e m).toNat = s.toBitVec.toNat * signWeight + e.toNat * binade + m.toNat := by
  have he := e.isLt
  have hm := m.isLt
  unfold ofFields packComponents
  simp only [BitVec.toNat_append, signWeight, binade]
  rw [← Nat.shiftLeft_add_eq_or_of_lt hm, ← Nat.shiftLeft_add_eq_or_of_lt he]
  simp only [Nat.shiftLeft_eq]
  omega

theorem toNat_signField (b : BitVec 64) :
    (signField b).toBitVec.toNat = b.toNat / signWeight := by
  have h : (@unpackSign .binary64 b).toNat = b.toNat / signWeight % 2 := by
    show (BitVec.extractLsb' 63 1 b).toNat = _
    simp [Nat.shiftRight_eq_div_pow, signWeight]
  have hb := b.isLt
  have hbit : ∀ c : BitVec 1, (Sign.ofBitVec c).toBitVec = c := by decide
  rw [signField, hbit, h, signWeight_eq]
  omega

theorem signField_eq_positive {b : BitVec 64} (h : b.toNat < signWeight) :
    signField b = .positive := by
  have hsign := toNat_signField b
  rw [Nat.div_eq_of_lt h] at hsign
  cases hs : signField b with
  | positive => rfl
  | negative =>
    rw [hs] at hsign
    exact absurd hsign (by decide)

theorem toNat_exponentField (b : BitVec 64) :
    (exponentField b).toNat = b.toNat / binade % 2048 := by
  simp [exponentField, unpackExponent, Nat.shiftRight_eq_div_pow, binade]

theorem toNat_mantissaField (b : BitVec 64) : (mantissaField b).toNat = b.toNat % binade := by
  simp [mantissaField, unpackMantissa, binade]

theorem ofFields_fields (b : BitVec 64) :
    ofFields (signField b) (exponentField b) (mantissaField b) = b := by
  apply BitVec.eq_of_toNat_eq
  rw [toNat_ofFields, toNat_signField, toNat_exponentField, toNat_mantissaField, signWeight_eq,
    binade_eq]
  omega

theorem toNat_ofFields_sign (s : Sign) (b : BitVec 64) :
    (ofFields s (exponentField b) (mantissaField b)).toNat =
      s.toBitVec.toNat * signWeight + b.toNat % signWeight := by
  rw [toNat_ofFields, toNat_exponentField, toNat_mantissaField, signWeight_eq, binade_eq]
  omega

/-- With the greatest exponent there is an infinity, and all other patterns are no numbers. -/
theorem mantissaField_eq_zero {b : BitVec 64} (h : b.toNat % signWeight ≤ infinityIndex)
    (he : exponentField b = -1#11) : mantissaField b = 0#52 := by
  apply BitVec.eq_of_toNat_eq
  have hexponent : (exponentField b).toNat = 2047 := congrArg BitVec.toNat he
  rw [toNat_exponentField, binade_eq] at hexponent
  rw [infinityIndex, signWeight_eq, binade_eq] at h
  rw [toNat_mantissaField, binade_eq]
  show _ = 0
  omega

/-! ### Packing what was unpacked -/

theorem toNat_implicit_append (m : BitVec 52) : (1#1 ++ m).toNat = binade + m.toNat := by
  rw [BitVec.toNat_append, ← Nat.shiftLeft_add_eq_or_of_lt m.isLt]
  rfl

theorem implicit_append_pos (m : BitVec 52) : 0 < (1#1 ++ m).toNat := by
  rw [toNat_implicit_append]
  exact Nat.add_pos_left (by decide) _

theorem pack_finite (s : Sign) {m b : Nat} {e : Int} (hm : 0 < m) (he : e + 1023 + 52 = b)
    (hb : b < 2047) :
    UnpackedFloat.pack .binary64 (.finite s m e hm) =
      ofFields s (if m.log2 = 52 then BitVec.ofNat 11 b else 0#11) (BitVec.ofNat 52 m) := by
  have hbiased : (e + 1023 + 52).toNat = b := by omega
  show (if 2048 ≤ (e + 1023 + 52).toNat + 1 then _
    else if m.log2 + 1 = 53 then ofFields s (BitVec.ofNat 11 (e + 1023 + 52).toNat) _
    else ofFields s 0#11 _) = _
  rw [hbiased, if_neg (by omega)]
  by_cases hlog : m.log2 = 52
  · rw [if_pos (by omega), if_pos hlog]
  · rw [if_neg (by omega), if_neg hlog]

theorem unpack_eq (b : BitVec 64) :
    UnpackedFloat.unpack .binary64 b =
      if exponentField b = -1#11 then
        if mantissaField b = 0#52 then .infinity (signField b) else .notANumber
      else if exponentField b = 0#11 then
        if hm : mantissaField b = 0#52 then .zero (signField b)
        else .finite (signField b) (mantissaField b).toNat
          ((exponentField b).toNat - (1023 + 52) + 1)
          (Nat.pos_of_ne_zero fun h => hm (BitVec.eq_of_toNat_eq h))
      else .finite (signField b) (1#1 ++ mantissaField b).toNat
        ((exponentField b).toNat - (1023 + 52)) (implicit_append_pos _) :=
  rfl

/-- A pattern that is a number is packed again from what it is unpacked to, with either sign. -/
theorem exists_unpack_eq {b : BitVec 64} (h : b.toNat % signWeight ≤ infinityIndex) :
    ∃ f : Sign → UnpackedFloat, UnpackedFloat.unpack .binary64 b = f (signField b) ∧
      (∀ s, (f s).neg = f (-s) ∧ (f s).abs = f .positive ∧ (f s).isNaN = false) ∧
      ∀ s, UnpackedFloat.pack .binary64 (f s) = ofFields s (exponentField b) (mantissaField b) := by
  have hunpack := unpack_eq b
  have hlt := (mantissaField b).isLt
  by_cases he : exponentField b = -1#11
  · have hm := mantissaField_eq_zero h he
    rw [if_pos he, if_pos hm] at hunpack
    refine ⟨.infinity, hunpack, fun s => ⟨rfl, rfl, rfl⟩, fun s => ?_⟩
    rw [he, hm]
    rfl
  rw [if_neg he] at hunpack
  by_cases h0 : exponentField b = 0#11
  · rw [if_pos h0] at hunpack
    by_cases hm : mantissaField b = 0#52
    · rw [dif_pos hm] at hunpack
      refine ⟨.zero, hunpack, fun s => ⟨rfl, rfl, rfl⟩, fun s => ?_⟩
      rw [h0, hm]
      rfl
    · rw [dif_neg hm] at hunpack
      refine ⟨fun s => .finite s _ _ _, hunpack, fun s => ⟨rfl, rfl, rfl⟩, fun s => ?_⟩
      have hlog : (mantissaField b).toNat.log2 ≠ 52 := by
        have hne : (mantissaField b).toNat ≠ 0 := fun h0 => hm (BitVec.eq_of_toNat_eq h0)
        exact Nat.ne_of_lt ((Nat.log2_lt hne).mpr hlt)
      rw [pack_finite (b := 1) s _ (by rw [h0]; rfl) (by decide), if_neg hlog, h0]
      simp
  · rw [if_neg h0] at hunpack
    refine ⟨fun s => .finite s _ _ _, hunpack, fun s => ⟨rfl, rfl, rfl⟩, fun s => ?_⟩
    have happend := toNat_implicit_append (mantissaField b)
    have hlog : (1#1 ++ mantissaField b).toNat.log2 = 52 := by
      rw [Nat.log2_eq_iff (Nat.ne_of_gt (implicit_append_pos _)), happend, binade_eq]
      omega
    have hexponent : (exponentField b).toNat < 2047 := by
      have hne : (exponentField b).toNat ≠ 2047 := fun h => he (BitVec.eq_of_toNat_eq h)
      have := (exponentField b).isLt
      omega
    have hm : BitVec.ofNat 52 (1#1 ++ mantissaField b).toNat = mantissaField b := by
      apply BitVec.eq_of_toNat_eq
      rw [BitVec.toNat_ofNat, happend, binade_eq]
      omega
    rw [pack_finite (b := (exponentField b).toNat) s _ (by omega) hexponent, if_pos hlog, hm]
    simp

/-! ### Doubles -/

theorem toBits_inj {x y : Float} (h : x.toBits = y.toBits) : x = y := by
  obtain ⟨⟨b, hb⟩⟩ := x
  obtain ⟨⟨c, hc⟩⟩ := y
  obtain rfl : b = c := h
  rfl

theorem toBits_ofBits {bits : UInt64} (h : bits.toNat % signWeight ≤ infinityIndex) :
    (Float.ofBits bits).toBits = bits := by
  obtain ⟨f, hunpack, -, hpack⟩ := exists_unpack_eq (b := bits.toBitVec) h
  show UInt64.ofBitVec (UnpackedFloat.pack .binary64
    (UnpackedFloat.unpack .binary64 bits.toBitVec)) = bits
  rw [hunpack, hpack, ofFields_fields]

theorem isNaN_eq_false {x : Float} (h : x.toBits.toNat % signWeight ≤ infinityIndex) :
    x.isNaN = false := by
  obtain ⟨f, hunpack, hf, -⟩ := exists_unpack_eq (b := x.toBits.toBitVec) h
  show (UnpackedFloat.unpack .binary64 x.toBits.toBitVec).isNaN = false
  rw [hunpack, (hf _).2.2]

theorem toNat_toBits_floatOfIndex (n : Nat) :
    (floatOfIndex n).toBits.toNat = min n infinityIndex := by
  have hlt : min n infinityIndex < signWeight :=
    Nat.lt_of_le_of_lt (Nat.min_le_right ..) (by decide)
  have htoNat : (UInt64.ofNat (min n infinityIndex)).toNat = min n infinityIndex := by
    rw [UInt64.toNat_ofNat']
    exact Nat.mod_eq_of_lt (Nat.lt_trans hlt (by decide))
  have hbits : (floatOfIndex n).toBits = .ofNat (min n infinityIndex) := by
    refine toBits_ofBits ?_
    rw [htoNat, Nat.mod_eq_of_lt hlt]
    exact Nat.min_le_right ..
  rw [hbits, htoNat]

/-- The minus turns the sign bit of a number on. -/
theorem toNat_toBits_neg {x : Float} (h : x.toBits.toNat ≤ infinityIndex) :
    (-x).toBits.toNat = signWeight + x.toBits.toNat := by
  have hlt : x.toBits.toBitVec.toNat < signWeight := Nat.lt_of_le_of_lt h (by decide)
  obtain ⟨f, hunpack, hf, hpack⟩ :=
    exists_unpack_eq (b := x.toBits.toBitVec) (by rw [Nat.mod_eq_of_lt hlt]; exact h)
  have hneg : (-x).toBits = .ofBitVec (UnpackedFloat.pack .binary64
      (UnpackedFloat.unpack .binary64 x.toBits.toBitVec).neg) := rfl
  have hnegative : (-signField x.toBits.toBitVec).toBitVec.toNat = 1 := by
    rw [signField_eq_positive hlt]
    rfl
  rw [hneg, hunpack, (hf _).1, hpack]
  show (ofFields _ _ _).toNat = _ + x.toBits.toBitVec.toNat
  rw [toNat_ofFields_sign, hnegative, Nat.one_mul, Nat.mod_eq_of_lt hlt]

/-- Without the sign bit the minus makes no difference. -/
theorem toNat_toBits_neg_mod {x : Float} (h : x.toBits.toNat % signWeight ≤ infinityIndex) :
    (-x).toBits.toNat % signWeight = x.toBits.toNat % signWeight := by
  obtain ⟨f, hunpack, hf, hpack⟩ := exists_unpack_eq (b := x.toBits.toBitVec) h
  have hneg : (-x).toBits = .ofBitVec (UnpackedFloat.pack .binary64
      (UnpackedFloat.unpack .binary64 x.toBits.toBitVec).neg) := rfl
  rw [hneg, hunpack, (hf _).1, hpack]
  show (ofFields _ _ _).toNat % signWeight = x.toBits.toBitVec.toNat % signWeight
  rw [toNat_ofFields_sign, Nat.mul_add_mod_self_right, Nat.mod_mod]

/-- The absolute value of a number has the sign bit off. -/
theorem toNat_toBits_abs {x : Float} (h : x.toBits.toNat % signWeight ≤ infinityIndex) :
    x.abs.toBits.toNat = x.toBits.toNat % signWeight := by
  obtain ⟨f, hunpack, hf, hpack⟩ := exists_unpack_eq (b := x.toBits.toBitVec) h
  have habs : x.abs.toBits = .ofBitVec (UnpackedFloat.pack .binary64
      (UnpackedFloat.unpack .binary64 x.toBits.toBitVec).abs) := rfl
  have hpositive : Sign.positive.toBitVec.toNat = 0 := rfl
  rw [habs, hunpack, (hf _).2.1, hpack]
  show (ofFields _ _ _).toNat = x.toBits.toBitVec.toNat % signWeight
  rw [toNat_ofFields_sign, hpositive, Nat.zero_mul, Nat.zero_add]

theorem eq_notANumber {x : Float} (h : infinityIndex < x.toBits.toNat % signWeight) :
    x = notANumber := by
  have hlt : x.toBits.toNat < 2 * signWeight := x.toBits.toBitVec.isLt
  rw [infinityIndex, signWeight_eq, binade_eq] at h
  rw [signWeight_eq] at hlt
  have hexponent : exponentField x.toBits.toBitVec = -1#11 := by
    apply BitVec.eq_of_toNat_eq
    rw [toNat_exponentField, binade_eq]
    show x.toBits.toNat / _ % _ = 2047
    omega
  have hmantissa : mantissaField x.toBits.toBitVec ≠ 0#52 := by
    intro hzero
    have hzero : x.toBits.toNat % binade = 0 :=
      (toNat_mantissaField _).symm.trans (congrArg BitVec.toNat hzero)
    rw [binade_eq] at hzero
    omega
  have hvalid := x.toModel.valid.eq_packedNaN hexponent hmantissa
  exact toBits_inj (UInt64.toBitVec_inj.mp hvalid)

/-- The double that is described. -/
def toFloat : Binary64 → Float
  | nan => notANumber
  | infinite negative => if negative then -infinity else infinity
  | finite negative n => if negative then -floatOfIndex n else floatOfIndex n

theorem eq_of_index {x : Float} {n : Nat} (hn : n ≤ infinityIndex)
    (hx : x.toBits.toNat % signWeight = n) :
    (if decide (signWeight ≤ x.toBits.toNat) then -floatOfIndex n else floatOfIndex n) = x := by
  have hlt : x.toBits.toNat < 2 * signWeight := x.toBits.toBitVec.isLt
  have hbits := toNat_toBits_floatOfIndex n
  rw [Nat.min_eq_left hn] at hbits
  have hneg := toNat_toBits_neg (x := floatOfIndex n) (hbits.symm ▸ hn)
  rw [signWeight_eq] at hx hlt hneg ⊢
  refine toBits_inj (UInt64.toNat_inj.mp ?_)
  by_cases h : 9223372036854775808 ≤ x.toBits.toNat
  · rw [if_pos (decide_eq_true h), hneg]
    omega
  · rw [if_neg (by simpa using h), hbits]
    omega

theorem toFloat_ofFloat (x : Float) : (ofFloat x).toFloat = x := by
  unfold ofFloat
  simp only
  split
  · exact eq_of_index (Nat.le_of_lt ‹_›) rfl
  · split
    · exact eq_of_index (Nat.le_refl _) ‹_›
    · exact (eq_notANumber (by omega)).symm

theorem ofFloat_inj {x y : Float} (h : ofFloat x = ofFloat y) : x = y := by
  rw [← toFloat_ofFloat x, ← toFloat_ofFloat y, h]

theorem lt_of_ofFloat {x : Float} {negative : Bool} {n : Nat}
    (h : ofFloat x = .finite negative n) : n < infinityIndex := by
  unfold ofFloat at h
  simp only at h
  split at h
  · cases h
    assumption
  · split at h <;> cases h

/-- The double that is made for an index and a sign has them. -/
theorem ofFloat_floatOfIndex (negative : Bool) (n : Nat) :
    ofFloat (if negative then -floatOfIndex n else floatOfIndex n) =
      if n < infinityIndex then .finite negative n else .infinite negative := by
  have hbits := toNat_toBits_floatOfIndex n
  have hle : (floatOfIndex n).toBits.toNat ≤ infinityIndex := hbits ▸ Nat.min_le_right ..
  have hneg := toNat_toBits_neg hle
  have hweight : infinityIndex < signWeight := by decide
  have hmin : min n infinityIndex < infinityIndex ↔ n < infinityIndex := by omega
  have hinfinity : ¬ n < infinityIndex → min n infinityIndex = infinityIndex := by omega
  have hmod : min n infinityIndex % signWeight = min n infinityIndex :=
    Nat.mod_eq_of_lt (by omega)
  unfold ofFloat
  cases negative with
  | false =>
    have hsign : ¬ signWeight ≤ min n infinityIndex := by omega
    simp only [Bool.false_eq_true, if_false, hbits, hmod, hmin, decide_eq_false hsign]
    split
    · rw [Nat.min_eq_left (Nat.le_of_lt ‹_›)]
    · rw [if_pos (hinfinity ‹_›)]
  | true =>
    have hsign : signWeight ≤ signWeight + min n infinityIndex := Nat.le_add_right ..
    simp only [if_true, hneg, hbits, Nat.add_mod_left, hmod, hmin, decide_eq_true hsign]
    split
    · rw [Nat.min_eq_left (Nat.le_of_lt ‹_›)]
    · rw [if_pos (hinfinity ‹_›)]

/-- A pattern that is a number is packed again from what it is unpacked to. -/
theorem pack_unpack {b : BitVec 64} (h : b.toNat % signWeight ≤ infinityIndex) :
    UnpackedFloat.pack .binary64 (UnpackedFloat.unpack .binary64 b) = b := by
  obtain ⟨f, hunpack, -, hpack⟩ := exists_unpack_eq h
  rw [hunpack, hpack, ofFields_fields]

end Reckoner.Binary64
