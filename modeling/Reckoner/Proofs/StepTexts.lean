import Reckoner.Number.Whole
import Reckoner.Proofs.Reading

/-!
# Numbers of the working are read back

A decimal that is written out in full spells its value (`spellsNumeral_positional`), so the shortest
text of a double is read as this double (`readDouble_plainText`). The text of a double near a whole
number is read as that whole number, which is a double with the same text
(`stepText_nearWhole`). Together these make the text of the working a projection with an error below
the tolerance (`stepText_projection`).

Whether a double is near a whole number is decided by a difference of doubles that is exact, so it
does not matter whether doubles or rational numbers are compared (`stepText_eq_ite`).
-/

namespace Reckoner

open Binary64 Layout

section Numerals

variable {cs run : List Char} {negative : Bool} {q : ℚ} {e : ℤ} {x : Float} {d : Decimal}

theorem spellsSign_sign (negative : Bool) : SpellsSign (sign negative) negative := by
  cases negative with
  | false => exact .none
  | true => exact .minus

theorem SpellsNumeral.spells (h : SpellsNumeral run q) (negative : Bool) :
    Spells (sign negative ++ run) negative q := by
  have hspells := Spells.mk (spellsSign_sign negative) h .absent
  rwa [List.append_nil, zpow_zero, mul_one] at hspells

theorem spellsNumeral_digits (w : Nat) : SpellsNumeral (digits w) w := by
  have hwhole := SpellsNumeral.whole (fun c hc => isDigit_of_mem_digits hc) (digits_ne_nil w)
  rwa [ofDigitChars_digits] at hwhole

theorem ofDigitChars_zeros_digits (k n : Nat) :
    Nat.ofDigitChars 10 (['0'] ++ (zeros k ++ digits n)) 0 = n := by
  rw [Nat.ofDigitChars_append, Nat.ofDigitChars_append, zeros, Nat.ofDigitChars_replicate_zero]
  exact ofDigitChars_digits n

/-- A decimal is written out in full, with the point where it belongs. -/
theorem spellsNumeral_positional (d : Decimal) : SpellsNumeral (positional [] d) d.value := by
  have hplace : pointPlace d = (digits d.digits).length + d.exponent := rfl
  have hdigits : ∀ c ∈ digits d.digits, c.isDigit := fun c hc => isDigit_of_mem_digits hc
  have hzeros {n : Nat} : ∀ c ∈ zeros n, c.isDigit := fun c hc => Json.isDigit_of_mem_zeros hc
  unfold positional
  simp only
  split
  · obtain ⟨e, he⟩ := Int.eq_ofNat_of_zero_le ‹0 ≤ d.exponent›
    have hwhole : SpellsNumeral (digits d.digits ++ zeros e) _ :=
      .whole (List.forall_mem_append.mpr ⟨hdigits, hzeros⟩)
        (List.append_ne_nil_of_left_ne_nil (digits_ne_nil _) _)
    rw [Nat.ofDigitChars_append, ofDigitChars_digits, zeros, Nat.ofDigitChars_replicate_zero,
      Nat.cast_mul, Nat.cast_pow, Nat.cast_ofNat, mul_comm] at hwhole
    rw [List.append_nil, he, Decimal.value, he, Int.toNat_natCast, zpow_natCast]
    exact hwhole
  · obtain ⟨k, hk⟩ : ∃ k : Nat, d.exponent = -k := ⟨d.exponent.natAbs, by omega⟩
    have hvalue : d.value = (d.digits : ℚ) / 10 ^ k := by
      rw [← Decimal.value_neg, ← hk]
    split
    · have hpointed := @SpellsNumeral.pointed ((digits d.digits).take (pointPlace d).toNat)
        ((digits d.digits).drop (pointPlace d).toNat)
        (by rwa [List.take_append_drop]) (by rw [List.take_append_drop]; exact digits_ne_nil _)
      have hlength : ((digits d.digits).drop (pointPlace d).toNat).length = k := by
        rw [List.length_drop]
        omega
      rw [List.take_append_drop, ofDigitChars_digits, hlength, ← hvalue] at hpointed
      exact hpointed
    · have hpointed := @SpellsNumeral.pointed ['0']
        (zeros (-pointPlace d).toNat ++ digits d.digits)
        (List.forall_mem_append.mpr ⟨Json.isDigit_of_mem_zero,
          List.forall_mem_append.mpr ⟨hzeros, hdigits⟩⟩) (List.cons_ne_nil _ _)
      have hlength : (zeros (-pointPlace d).toNat ++ digits d.digits).length = k := by
        rw [List.length_append, zeros, List.length_replicate]
        omega
      rw [ofDigitChars_zeros_digits, hlength, ← hvalue] at hpointed
      exact hpointed

theorem readDouble_of_spells (h : Spells cs negative q) (hx : Rounds negative q (ofFloat x)) :
    readDouble (String.ofList cs) = some x := by
  obtain ⟨v, hv, hrounds, -⟩ := exists_readDouble h
  rw [hv, eq_of_rounds hrounds hx]

/-- The text of a double is read as this double, be it finite or not. -/
theorem readDouble_plainText (x : Float) : readDouble (plainText x) = some x := by
  have hfloat := toFloat_ofFloat x
  rw [plainText]
  cases hx : ofFloat x with
  | nan =>
    rw [hx] at hfloat
    rw [← hfloat]
    rfl
  | infinite negative =>
    rw [hx] at hfloat
    rw [← hfloat]
    cases negative <;> rfl
  | finite negative n =>
    have hfin := lt_of_ofFloat hx
    cases n with
    | zero =>
      have hspells := (spellsNumeral_digits 0).spells negative
      refine readDouble_of_spells hspells ?_
      rw [hx, Nat.cast_zero, ← magnitude_zero]
      exact .finite (isNearest_magnitude 0) hfin
    | succ n =>
      refine readDouble_of_spells ((spellsNumeral_positional _).spells negative) ?_
      rw [hx]
      exact .finite (isNearest_shortest .up (Nat.succ_pos n) hfin) hfin

end Numerals

section Doubles

variable {negative : Bool} {n m w : Nat} {x y : Float}

/-- The text of a number near a whole one. -/
def wholeText (negative : Bool) (w : Nat) : List Char :=
  sign (negative && w != 0) ++ digits w

theorem stepText_of_nearWhole (h : ofFloat x = .finite negative n) (hnear : NearWhole n) :
    stepText x = String.ofList (wholeText negative (nearestWhole n)) := by
  rw [stepText, h, step, if_pos hnear]
  rfl

theorem stepText_of_not_nearWhole (h : ofFloat x = .finite negative n) (hfar : ¬ NearWhole n) :
    stepText x = plainText x := by
  rw [stepText, h, step, if_neg hfar, plainText, h]

theorem stepText_of_not_isFinite (h : ¬ IsFinite x) : stepText x = plainText x := by
  rw [stepText, plainText]
  unfold IsFinite at h
  cases hx : ofFloat x with
  | nan => rfl
  | infinite negative => rfl
  | finite negative n =>
    rw [hx] at h
    exact absurd rfl h

theorem plainText_of_not_isFinite (h : ¬ IsFinite x) :
    plainText x = "NaN" ∨ plainText x = "inf" ∨ plainText x = "-inf" := by
  unfold IsFinite at h
  rw [plainText]
  cases hx : ofFloat x with
  | nan => exact .inl rfl
  | infinite negative =>
    cases negative
    · exact .inr (.inl rfl)
    · exact .inr (.inr rfl)
  | finite negative n =>
    rw [hx] at h
    exact absurd rfl h

/-- The whole number in the text of a double near it is read as a double that has the same text. -/
theorem exists_readDouble_wholeText (negative : Bool) (hm : gridPoint m = w * one)
    (hfin : m < infinityIndex) :
    ∃ y, readDouble (String.ofList (wholeText negative w)) = some y ∧
      ofFloat y = .finite (negative && w != 0) m ∧
      stepText y = String.ofList (wholeText negative w) := by
  have hfloat := ofFloat_floatOfIndex (negative && w != 0) m
  rw [if_pos hfin] at hfloat
  refine ⟨_, readDouble_of_spells ((spellsNumeral_digits w).spells _) ?_, hfloat, ?_⟩
  · rw [hfloat, ← magnitude_eq_iff.mpr hm]
    exact .finite (isNearest_magnitude m) hfin
  · rw [stepText_of_nearWhole hfloat (nearWhole_of_gridPoint hm), nearestWhole_of_gridPoint hm,
      wholeText, wholeText, Bool.and_assoc, Bool.and_self]

theorem wholeText_ne (negative : Bool) (w : Nat) : wholeText negative w ≠ ['-', '0'] := by
  intro h
  unfold wholeText at h
  cases hsign : negative && w != 0 with
  | true =>
    rw [hsign] at h
    have hdigits : digits w = ['0'] := (List.cons.inj h).2
    obtain rfl : 0 = w := by
      have hw := ofDigitChars_digits w
      rwa [hdigits] at hw
    simp at hsign
  | false =>
    rw [hsign] at h
    have hdigits : digits w = ['-', '0'] := h
    have hminus : '-' ∈ digits w := hdigits ▸ List.mem_cons_self
    exact absurd (isDigit_of_mem_digits hminus) (by decide)

theorem point_not_mem_wholeText (negative : Bool) (w : Nat) : '.' ∉ wholeText negative w := by
  intro h
  rcases List.mem_append.mp h with h | h
  · cases hsign : negative && w != 0 <;> simp [hsign, sign] at h
  · exact absurd (isDigit_of_mem_digits h) (by decide)

theorem point_mem_positional {d : Decimal} (h : d.exponent < 0) : '.' ∈ positional [] d := by
  unfold positional
  simp only
  rw [if_neg (Int.not_le.mpr h)]
  split <;> simp

theorem point_mem_plainText (h : ofFloat x = .finite negative n) (hfar : ¬ NearWhole n) :
    '.' ∈ (plainText x).toList := by
  rw [plainText, String.toList_ofList, h]
  cases n with
  | zero => exact absurd (nearWhole_of_gridPoint (w := 0) (by rw [gridPoint_zero, Nat.zero_mul])) hfar
  | succ n =>
    exact List.mem_append_right _ (point_mem_positional (exponent_shortest_neg hfar (lt_of_ofFloat h)))

/-- Near a whole number the text is the one of that number, and the sign of zero is lost. -/
theorem stepText_nearWhole (h : ofFloat x = .finite negative n) (hnear : NearWhole n) :
    ∃ y m, readDouble (stepText x) = some y ∧ stepText y = stepText x ∧
      ofFloat y = .finite (negative && nearestWhole n != 0) m ∧
      gridPoint m = nearestWhole n * one := by
  obtain ⟨m, hm, hfin⟩ := exists_gridPoint_nearestWhole (lt_of_ofFloat h)
  obtain ⟨y, hread, hy, htext⟩ := exists_readDouble_wholeText negative hm hfin
  rw [← stepText_of_nearWhole h hnear] at hread htext
  exact ⟨y, m, hread, htext, hy, hm⟩

/-- The sign that is lost is the one of a zero. -/
theorem rational_of_gridPoint_eq (hy : ofFloat y = .finite (negative && w != 0) m)
    (hm : gridPoint m = w * one) : rational y = (if negative then -1 else 1) * w := by
  rw [rational_of_ofFloat hy, magnitude_eq_iff.mpr hm]
  by_cases hw : w = 0
  · rw [hw, Nat.cast_zero, mul_zero, mul_zero]
  · have hsign : (negative && w != 0) = negative := by simp [hw]
    rw [hsign]

theorem abs_sub_of_nearWhole (hx : ofFloat x = .finite negative n) (hnear : NearWhole n)
    (hy : rational y = (if negative then -1 else 1) * nearestWhole n) :
    |rational y - rational x| < rational 1e-9 := by
  have hsign : |(if negative then -1 else 1 : ℚ)| = 1 := by cases negative <;> simp
  rw [nearWhole_iff] at hnear
  rwa [hy, rational_of_ofFloat hx, ← mul_sub, abs_mul, hsign, one_mul, abs_sub_comm,
    rational_tolerance]

theorem rational_eq_of_isWhole (hx : ofFloat x = .finite negative n) (hwhole : IsWhole x)
    (hy : rational y = (if negative then -1 else 1) * nearestWhole n) : rational y = rational x := by
  rw [hy, rational_of_ofFloat hx, magnitude_eq_iff.mpr (hwhole.gridPoint_eq hx)]

/-- All the digits of a whole double. -/
def fixedText (x : Float) : String :=
  match ofFloat x with
  | .finite negative n => String.ofList (sign negative ++ digits (gridPoint n / one))
  | _ => plainText x

theorem fixedText_of_gridPoint (h : ofFloat x = .finite negative m) (hm : gridPoint m = w * one) :
    fixedText x = String.ofList (sign negative ++ digits w) := by
  rw [fixedText, h]
  simp only [hm, Nat.mul_div_cancel w Binary64.one_pos]

/-- The text is chosen by the distance to the nearest whole number, as doubles compute it. A zero
has no sign, and any other whole number has all its digits. -/
theorem stepText_eq_ite (x : Float) :
    stepText x = if (x - roundWhole x).abs < 1e-9
      then if rational (roundWhole x) = 0 then "0" else fixedText (roundWhole x)
      else plainText x := by
  by_cases hfinite : IsFinite x
  · obtain ⟨negative, n, h⟩ := exists_ofFloat hfinite
    obtain ⟨m, hm, hgrid⟩ := ofFloat_roundWhole h
    have hzero : rational (roundWhole x) = 0 ↔ nearestWhole n = 0 := by
      rw [← abs_eq_zero, abs_rational_of_ofFloat hm, magnitude_eq_iff.mpr hgrid, Nat.cast_eq_zero]
    simp only [abs_sub_roundWhole_lt_iff h, hzero]
    split
    · rw [stepText_of_nearWhole h ‹_›, fixedText_of_gridPoint hm hgrid, wholeText]
      split
      · rename_i hw
        rw [hw, bne_self_eq_false, Bool.and_false]
        rfl
      · rename_i hw
        rw [bne_iff_ne.mpr hw, Bool.and_true]
    · exact stepText_of_not_nearWhole h ‹_›
  · rw [if_neg (not_abs_sub_roundWhole_lt hfinite), stepText_of_not_isFinite hfinite]

/-- The text of the working is read as a double with the same text. It is never a zero with a sign,
it is off by less than `1e-9`, and not at all for whole numbers and for those that are not near one;
these are the ones with a point. What is not finite is read back. -/
theorem stepText_projection (x : Float) :
    ∃ y, readDouble (stepText x) = some y ∧ stepText y = stepText x ∧ stepText x ≠ "-0" ∧
      (IsFinite x → IsFinite y ∧ |rational y - rational x| < rational 1e-9 ∧
        (IsWhole x ∨ FarFromWhole x → rational y = rational x)) ∧
      ('.' ∈ (stepText x).toList ↔ IsFinite x ∧ FarFromWhole x) ∧
      (¬ IsFinite x → y = x) := by
  by_cases hfinite : IsFinite x
  · obtain ⟨negative, n, hx⟩ := exists_ofFloat hfinite
    by_cases hnear : NearWhole n
    · obtain ⟨y, m, hread, htext, hy, hm⟩ := stepText_nearWhole hx hnear
      have hrational := rational_of_gridPoint_eq hy hm
      have hnotfar : ¬ FarFromWhole x := fun h => (farFromWhole_iff hx).mp h hnear
      refine ⟨y, hread, htext, ?_, fun _ => ⟨isFinite_of_ofFloat hy,
        abs_sub_of_nearWhole hx hnear hrational, ?_⟩, ?_, fun h => absurd hfinite h⟩
      · rw [stepText_of_nearWhole hx hnear]
        intro h
        have hchars := congrArg String.toList h
        rw [String.toList_ofList] at hchars
        exact wholeText_ne _ _ hchars
      · rintro (hwhole | hfar)
        · exact rational_eq_of_isWhole hx hwhole hrational
        · exact absurd hfar hnotfar
      · rw [stepText_of_nearWhole hx hnear, String.toList_ofList]
        exact iff_of_false (point_not_mem_wholeText _ _) fun h => hnotfar h.2
    · have hpoint := point_mem_plainText hx hnear
      rw [stepText_of_not_nearWhole hx hnear]
      refine ⟨x, readDouble_plainText x, stepText_of_not_nearWhole hx hnear, ?_,
        fun _ => ⟨hfinite, ?_, fun _ => rfl⟩, iff_of_true hpoint ⟨hfinite, ?_⟩, fun _ => rfl⟩
      · intro h
        rw [h] at hpoint
        exact absurd hpoint (by decide)
      · rw [sub_self, abs_zero]
        exact rational_tolerance_pos
      · exact (farFromWhole_iff hx).mpr hnear
  · have hwords := plainText_of_not_isFinite hfinite
    rw [stepText_of_not_isFinite hfinite]
    refine ⟨x, readDouble_plainText x, stepText_of_not_isFinite hfinite, ?_,
      fun h => absurd h hfinite, iff_of_false ?_ fun h => hfinite h.1, fun _ => rfl⟩
    · rcases hwords with h | h | h <;> rw [h] <;> decide
    · rcases hwords with h | h | h <;> rw [h] <;> decide

theorem stepText_projection_half :
    IsFinite 2.5 ∧ FarFromWhole 2.5 ∧
      ∃ y, readDouble (stepText 2.5) = some y ∧ rational y = rational 2.5 := by
  have hfinite : IsFinite 2.5 := by decide
  obtain ⟨negative, n, hx, hn⟩ : ∃ negative n, ofFloat 2.5 = .finite negative n ∧ ¬ NearWhole n :=
    ⟨false, 0x4004000000000000, rfl, by decide +kernel⟩
  have hfar : FarFromWhole 2.5 := (farFromWhole_iff hx).mpr hn
  obtain ⟨y, hread, -, -, hclose, -, -⟩ := stepText_projection 2.5
  exact ⟨hfinite, hfar, y, hread, (hclose hfinite).2.2 (.inr hfar)⟩

end Doubles

end Reckoner
