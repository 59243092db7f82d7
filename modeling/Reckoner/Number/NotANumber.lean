import Reckoner.Number.Grid.Operations
import Reckoner.Number.Rational

/-!
# Operations that give no number

What is rounded to the format is zero or has a significand (`isNaN_normalize`), and what is packed
from a number is a number again (`isNaN_unpack_pack`). So the special cases of an operation decide
where its result is no number: never for the sum of a number and a finite double (`isNaN_add`), nor
for the difference of a finite double and a number (`isNaN_sub`), and for the quotient of numbers
only if both are infinite or both are zero (`isInf_or_abs_eq_zero_of_isNaN_div`). Two numbers can
always be compared (`le_of_not_lt_of_isNaN`). An infinity counts as a number here.
-/

namespace Reckoner.Binary64

open Float.Model (UnpackedFloat Format)
open Float.Model.UnpackedFloat

/-! ### Unpacked numbers -/

section Unpacked

variable {spec : Format} {u v : UnpackedFloat}

theorem isNaN_roundWithAccuracy (s : Sign) (m : Nat) (e : Int) (accuracy : Accuracy) :
    (roundWithAccuracy spec s m e accuracy).isNaN = false := by
  have hnumber (m : Nat) (e : Int) : (if h : m = 0 then UnpackedFloat.zero s
      else .finite s m e (Nat.pos_of_ne_zero h)).isNaN = false := by
    cases m <;> rfl
  exact hnumber _ _

theorem isNaN_normalize (m e : Int) (s : Sign) :
    (UnpackedFloat.normalize spec m e s).isNaN = false := by
  unfold UnpackedFloat.normalize
  split
  · exact isNaN_roundWithAccuracy ..
  · rfl
  · exact isNaN_roundWithAccuracy ..

/-- Only two infinities can add up to no number, so it is enough that one operand is finite. -/
theorem isNaN_add_unpacked (hu : u.isNaN = false) (hv : v.isNaN = false)
    (h : u.isFinite = true ∨ v.isFinite = true) : (UnpackedFloat.add spec u v).isNaN = false := by
  cases u with
  | notANumber => cases hu
  | infinity s =>
    cases v with
    | notANumber => cases hv
    | infinity t => rcases h with h | h <;> cases h
    | zero | finite => rfl
  | zero s =>
    cases v with
    | notANumber => cases hv
    | zero t => cases s <;> cases t <;> rfl
    | infinity | finite => rfl
  | finite s m e hm =>
    cases v with
    | notANumber => cases hv
    | finite => exact isNaN_normalize ..
    | infinity | zero => rfl

theorem sub_eq_add_neg_unpacked (u v : UnpackedFloat) :
    UnpackedFloat.sub spec u v = UnpackedFloat.add spec u v.neg := by
  cases u with
  | finite s m e hm =>
    cases v with
    | finite t m' e' hm' =>
      have happly (n : Int) : (-t).apply n = -t.apply n := by
        cases t with
        | positive => rfl
        | negative => exact (Int.neg_neg n).symm
      unfold UnpackedFloat.sub UnpackedFloat.neg UnpackedFloat.add
      dsimp only
      rw [happly, Int.sub_eq_add_neg]
    | notANumber | infinity | zero => rfl
  | notANumber | infinity | zero => cases v <;> rfl

theorem isNaN_neg_unpacked (hu : u.isNaN = false) : u.neg.isNaN = false := by
  cases u with
  | notANumber => cases hu
  | infinity | zero | finite => rfl

theorem isNaN_abs_unpacked (hu : u.isNaN = false) : u.abs.isNaN = false := by
  cases u with
  | notANumber => cases hu
  | infinity | zero | finite => rfl

theorem isNaN_div_unpacked (hu : u.isNaN = false) (hv : v.isNaN = false)
    (h : (UnpackedFloat.div spec u v).isNaN = true) :
    u.isInf = true ∧ v.isInf = true ∨ ∃ s t, u = .zero s ∧ v = .zero t := by
  cases u with
  | notANumber => cases hu
  | infinity s =>
    cases v with
    | notANumber => cases hv
    | infinity => exact .inl ⟨rfl, rfl⟩
    | zero | finite => cases h
  | zero s =>
    cases v with
    | notANumber => cases hv
    | zero t => exact .inr ⟨s, t, rfl, rfl⟩
    | infinity | finite => cases h
  | finite s m e hm =>
    cases v with
    | notANumber => cases hv
    | finite => exact nomatch (isNaN_roundWithAccuracy ..).symm.trans h
    | infinity | zero => cases h

theorem swap_compare (e e' : Int) (m m' : Nat) :
    ((compare e e').then (compare m m')).swap = (compare e' e).then (compare m' m) := by
  rw [Ordering.swap_then, Int.compare_swap, Nat.compare_swap]

/-- Numbers are compared, and the other way round with the opposite outcome. -/
theorem exists_compare (hu : u.isNaN = false) (hv : v.isNaN = false) :
    ∃ o, u.compare v = some o ∧ v.compare u = some o.swap := by
  cases u with
  | notANumber => cases hu
  | infinity s =>
    cases v with
    | notANumber => cases hv
    | infinity t => cases s <;> cases t <;> exact ⟨_, rfl, rfl⟩
    | zero | finite => cases s <;> exact ⟨_, rfl, rfl⟩
  | zero s =>
    cases v with
    | notANumber => cases hv
    | infinity t => cases t <;> exact ⟨_, rfl, rfl⟩
    | zero => exact ⟨_, rfl, rfl⟩
    | finite t => cases t <;> exact ⟨_, rfl, rfl⟩
  | finite s m e hm =>
    cases v with
    | notANumber => cases hv
    | infinity t => cases t <;> exact ⟨_, rfl, rfl⟩
    | zero => cases s <;> exact ⟨_, rfl, rfl⟩
    | finite t m' e' hm' =>
      cases s with
      | positive =>
        cases t with
        | positive => exact ⟨_, rfl, congrArg some (swap_compare e e' m m').symm⟩
        | negative => exact ⟨_, rfl, rfl⟩
      | negative =>
        cases t with
        | positive => exact ⟨_, rfl, rfl⟩
        | negative =>
          have hswap := congrArg (some ·.swap) (swap_compare e e' m m').symm
          exact ⟨_, rfl, hswap⟩

theorem le_of_not_lt_unpacked (hu : u.isNaN = false) (hv : v.isNaN = false) (h : ¬ u.lt v = true) :
    v.le u = true := by
  obtain ⟨o, ho, hswap⟩ := exists_compare hu hv
  simp only [UnpackedFloat.lt, ho, beq_iff_eq, Option.some.injEq] at h
  simp only [UnpackedFloat.le, hswap, Option.any_some]
  cases o with
  | lt => exact absurd rfl h
  | eq | gt => rfl

end Unpacked

/-! ### Packing -/

section Packing

variable {u : UnpackedFloat}

theorem isNaN_unpack_ofFields (s : Sign) {e : BitVec 11} {m : BitVec 52}
    (h : e = -1#11 → m = 0#52) :
    (UnpackedFloat.unpack .binary64 (ofFields s e m)).isNaN = false := by
  have he := e.isLt
  have hm := m.isLt
  have hinfinite : e.toNat = 2047 → m.toNat = 0 :=
    fun he => congrArg BitVec.toNat (h (BitVec.eq_of_toNat_eq he))
  have hle : (ofFields s e m).toNat % signWeight ≤ infinityIndex := by
    rw [toNat_ofFields, infinityIndex, signWeight_eq, binade_eq]
    omega
  obtain ⟨f, hunpack, hf, -⟩ := exists_unpack_eq hle
  rw [hunpack, (hf _).2.2]

/-- The greatest exponent is packed for an infinity only. -/
theorem isNaN_unpack_pack (h : u.isNaN = false) :
    (UnpackedFloat.unpack .binary64 (UnpackedFloat.pack .binary64 u)).isNaN = false := by
  cases u with
  | notANumber => cases h
  | infinity s => exact isNaN_unpack_ofFields s fun _ => rfl
  | zero s => exact isNaN_unpack_ofFields s fun _ => rfl
  | finite s m e hm =>
    show (UnpackedFloat.unpack .binary64 (if 2048 ≤ (e + 1023 + 52).toNat + 1 then
      ofFields s (-1#11) 0#52
      else if m.log2 + 1 = 53 then ofFields s (BitVec.ofNat 11 (e + 1023 + 52).toNat) _
      else ofFields s 0#11 _)).isNaN = false
    split
    · exact isNaN_unpack_ofFields s fun _ => rfl
    · split
      · refine isNaN_unpack_ofFields s fun he => ?_
        have hnat := congrArg BitVec.toNat he
        rw [BitVec.toNat_ofNat] at hnat
        have hgreatest : (-1#11).toNat = 2047 := rfl
        omega
      · exact isNaN_unpack_ofFields s nofun

end Packing

/-! ### Doubles -/

section Doubles

variable {x y : Float}

theorem isFinite_unpack (h : IsFinite x) :
    (UnpackedFloat.unpack .binary64 x.toBits.toBitVec).isFinite = true := by
  obtain ⟨negative, n, hx⟩ := exists_ofFloat h
  obtain ⟨k, m, -, hunpack⟩ := exists_unpack_of_ofFloat hx
  rw [hunpack]
  cases m <;> rfl

theorem isNaN_of_isFinite (h : IsFinite x) : x.isNaN = false :=
  isNaN_eq_false (Nat.le_of_lt (isFinite_iff.mp h))

theorem isNaN_add (hx : x.isNaN = false) (hy : IsFinite y) : (x + y).isNaN = false :=
  isNaN_unpack_pack (isNaN_add_unpacked hx (isNaN_of_isFinite hy) (.inr (isFinite_unpack hy)))

theorem isNaN_sub (hx : IsFinite x) (hy : y.isNaN = false) : (x - y).isNaN = false := by
  refine isNaN_unpack_pack ?_
  show (UnpackedFloat.sub _ _ _).isNaN = false
  rw [sub_eq_add_neg_unpacked]
  exact isNaN_add_unpacked (isNaN_of_isFinite hx) (isNaN_neg_unpacked hy)
    (.inl (isFinite_unpack hx))

theorem isNaN_abs (hx : x.isNaN = false) : x.abs.isNaN = false :=
  isNaN_unpack_pack (isNaN_abs_unpacked hx)

theorem abs_eq_zero_of_unpack {s : Sign}
    (h : UnpackedFloat.unpack .binary64 x.toBits.toBitVec = .zero s) : x.abs = 0 := by
  have hbits : x.abs.toBits = .ofBitVec (UnpackedFloat.pack .binary64
      (UnpackedFloat.unpack .binary64 x.toBits.toBitVec).abs) := rfl
  rw [h] at hbits
  exact toBits_inj hbits

/-- A quotient of numbers is no number only where two infinities or two zeros are divided. -/
theorem isInf_or_abs_eq_zero_of_isNaN_div (hx : x.isNaN = false) (hy : y.isNaN = false)
    (h : (x / y).isNaN = true) :
    x.isInf = true ∧ y.isInf = true ∨ x.abs = 0 ∧ y.abs = 0 := by
  have hdiv : (UnpackedFloat.div .binary64 (UnpackedFloat.unpack .binary64 x.toBits.toBitVec)
      (UnpackedFloat.unpack .binary64 y.toBits.toBitVec)).isNaN = true := by
    refine Bool.of_not_eq_false fun hnumber => ?_
    exact nomatch (isNaN_unpack_pack hnumber).symm.trans h
  obtain hinf | ⟨s, t, hs, ht⟩ := isNaN_div_unpacked hx hy hdiv
  · exact .inl hinf
  · exact .inr ⟨abs_eq_zero_of_unpack hs, abs_eq_zero_of_unpack ht⟩

theorem le_of_not_lt_of_isNaN (hx : x.isNaN = false) (hy : y.isNaN = false) (h : ¬ x < y) :
    y ≤ x := by
  have hlt : x < y ↔ (UnpackedFloat.unpack .binary64 x.toBits.toBitVec).lt
      (UnpackedFloat.unpack .binary64 y.toBits.toBitVec) = true :=
    decide_eq_true_iff (p := x.toModel < y.toModel)
  have hle : y ≤ x ↔ (UnpackedFloat.unpack .binary64 y.toBits.toBitVec).le
      (UnpackedFloat.unpack .binary64 x.toBits.toBitVec) = true :=
    decide_eq_true_iff (p := y.toModel ≤ x.toModel)
  rw [hle]
  exact le_of_not_lt_unpacked hx hy (mt hlt.mpr h)

end Doubles

end Reckoner.Binary64
