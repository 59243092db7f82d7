import Reckoner.Number.Grid.Operations

/-!
# The sign of zero

`SameNumber x y` says that two doubles are equal, or zeros of any sign. Sums, differences and
products of the same numbers are the same numbers (`SameNumber.add`, `SameNumber.sub`,
`SameNumber.mul`), and so are quotients by the same double. Where a zero is divided, the sign of the
divisor is of no account; where another number is divided by zero, it is the sign of an infinity.
-/

namespace Reckoner

open Float.Model (UnpackedFloat Format)
open Float.Model.UnpackedFloat

namespace Binary64

/-! ### Unpacked zeros -/

section Unpacked

variable {spec : Format} {u u' v v' w : UnpackedFloat} {f : UnpackedFloat → UnpackedFloat → UnpackedFloat}

/-- Equal, or zeros of any sign. -/
def EqOrZeros (u v : UnpackedFloat) : Prop :=
  u = v ∨ ∃ s t, u = .zero s ∧ v = .zero t

theorem EqOrZeros.trans (h : EqOrZeros u v) (h' : EqOrZeros v w) : EqOrZeros u w := by
  rcases h with rfl | ⟨s, t, rfl, rfl⟩
  · exact h'
  · rcases h' with rfl | ⟨-, r, -, rfl⟩
    · exact .inr ⟨s, t, rfl, rfl⟩
    · exact .inr ⟨s, r, rfl, rfl⟩

/-- An operation that takes no account of the sign of a zero, on either side. -/
def IgnoresZeroSign (f : UnpackedFloat → UnpackedFloat → UnpackedFloat) : Prop :=
  ∀ s t v, EqOrZeros (f (.zero s) v) (f (.zero t) v) ∧ EqOrZeros (f v (.zero s)) (f v (.zero t))

theorem IgnoresZeroSign.congr (h : IgnoresZeroSign f) (hu : EqOrZeros u u') (hv : EqOrZeros v v') :
    EqOrZeros (f u v) (f u' v') := by
  have hleft : EqOrZeros (f u v) (f u' v) := by
    rcases hu with rfl | ⟨s, t, rfl, rfl⟩
    · exact .inl rfl
    · exact (h s t v).1
  have hright : EqOrZeros (f u' v) (f u' v') := by
    rcases hv with rfl | ⟨s, t, rfl, rfl⟩
    · exact .inl rfl
    · exact (h s t u').2
  exact hleft.trans hright

theorem ignoresZeroSign_add : IgnoresZeroSign (UnpackedFloat.add spec) := by
  intro s t v
  cases v with
  | zero r =>
    cases r <;> cases s <;> cases t <;> exact ⟨.inr ⟨_, _, rfl, rfl⟩, .inr ⟨_, _, rfl, rfl⟩⟩
  | notANumber | infinity | finite => exact ⟨.inl rfl, .inl rfl⟩

theorem ignoresZeroSign_sub : IgnoresZeroSign (UnpackedFloat.sub spec) := by
  intro s t v
  cases v with
  | zero r =>
    cases r <;> cases s <;> cases t <;> exact ⟨.inr ⟨_, _, rfl, rfl⟩, .inr ⟨_, _, rfl, rfl⟩⟩
  | notANumber | infinity | finite => exact ⟨.inl rfl, .inl rfl⟩

theorem ignoresZeroSign_mul : IgnoresZeroSign (UnpackedFloat.mul spec) := by
  intro s t v
  cases v with
  | zero | finite => exact ⟨.inr ⟨_, _, rfl, rfl⟩, .inr ⟨_, _, rfl, rfl⟩⟩
  | notANumber | infinity => exact ⟨.inl rfl, .inl rfl⟩

theorem EqOrZeros.div_right (h : EqOrZeros u u') (v : UnpackedFloat) :
    EqOrZeros (UnpackedFloat.div spec u v) (UnpackedFloat.div spec u' v) := by
  rcases h with rfl | ⟨s, t, rfl, rfl⟩
  · exact .inl rfl
  · cases v with
    | infinity | finite => exact .inr ⟨_, _, rfl, rfl⟩
    | notANumber | zero => exact .inl rfl

end Unpacked

theorem isIndex_zero : IsIndex 0 0 0 where
  index := rfl
  lt := by decide
  le h := absurd h (Nat.lt_irrefl 0)

end Binary64

/-! ### Zeros among the doubles -/

open Binary64

def IsZero (x : Float) : Prop :=
  ∃ negative, ofFloat x = .finite negative 0

/-- Equal, or zeros of any sign. -/
def SameNumber (x y : Float) : Prop :=
  x = y ∨ IsZero x ∧ IsZero y

section Operations

variable {x x' y y' : Float} {u v : UnpackedFloat}

theorem IsZero.exists_unpack (h : IsZero x) :
    ∃ s, UnpackedFloat.unpack .binary64 x.toBits.toBitVec = .zero s := by
  obtain ⟨negative, hx⟩ := h
  obtain ⟨k, m, hindex, hunpack⟩ := exists_unpack_of_ofFloat hx
  obtain ⟨rfl, rfl⟩ := hindex.eq isIndex_zero
  exact ⟨_, hunpack⟩

theorem isZero_of_pack {s : Sign} (h : x.toBits = .ofBitVec (UnpackedFloat.pack .binary64 (.zero s))) :
    IsZero x :=
  exists_ofFloat_of_pack isIndex_zero (by decide) h

theorem SameNumber.unpack (h : SameNumber x y) :
    EqOrZeros (UnpackedFloat.unpack .binary64 x.toBits.toBitVec)
      (UnpackedFloat.unpack .binary64 y.toBits.toBitVec) := by
  rcases h with rfl | ⟨hx, hy⟩
  · exact .inl rfl
  · obtain ⟨s, hs⟩ := hx.exists_unpack
    obtain ⟨t, ht⟩ := hy.exists_unpack
    exact .inr ⟨s, t, hs, ht⟩

theorem sameNumber_of_pack (h : EqOrZeros u v)
    (hx : x.toBits = .ofBitVec (UnpackedFloat.pack .binary64 u))
    (hy : y.toBits = .ofBitVec (UnpackedFloat.pack .binary64 v)) : SameNumber x y := by
  rcases h with rfl | ⟨s, t, rfl, rfl⟩
  · exact .inl (toBits_inj (hx.trans hy.symm))
  · exact .inr ⟨isZero_of_pack hx, isZero_of_pack hy⟩

theorem SameNumber.add (hx : SameNumber x x') (hy : SameNumber y y') :
    SameNumber (x + y) (x' + y') :=
  sameNumber_of_pack (ignoresZeroSign_add.congr hx.unpack hy.unpack) rfl rfl

theorem SameNumber.sub (hx : SameNumber x x') (hy : SameNumber y y') :
    SameNumber (x - y) (x' - y') :=
  sameNumber_of_pack (ignoresZeroSign_sub.congr hx.unpack hy.unpack) rfl rfl

theorem SameNumber.mul (hx : SameNumber x x') (hy : SameNumber y y') :
    SameNumber (x * y) (x' * y') :=
  sameNumber_of_pack (ignoresZeroSign_mul.congr hx.unpack hy.unpack) rfl rfl

theorem SameNumber.div_right (hx : SameNumber x x') (y : Float) : SameNumber (x / y) (x' / y) :=
  sameNumber_of_pack (hx.unpack.div_right _) rfl rfl

theorem IsZero.div (hx : IsZero x) (hx' : IsZero x') (hy : IsZero y) (hy' : IsZero y') :
    x / y = x' / y' := by
  obtain ⟨s, hs⟩ := hx.exists_unpack
  obtain ⟨s', hs'⟩ := hx'.exists_unpack
  obtain ⟨t, ht⟩ := hy.exists_unpack
  obtain ⟨t', ht'⟩ := hy'.exists_unpack
  have hbits (z w : Float) : (z / w).toBits = .ofBitVec (UnpackedFloat.pack .binary64
      (UnpackedFloat.div .binary64 (UnpackedFloat.unpack .binary64 z.toBits.toBitVec)
        (UnpackedFloat.unpack .binary64 w.toBits.toBitVec))) := rfl
  refine toBits_inj ?_
  rw [hbits, hbits, hs, hs', ht, ht']
  rfl

/-- The sign of a divisor that is zero is of no account if the dividend is zero as well. -/
theorem SameNumber.div (hx : SameNumber x x') (hy : SameNumber y y') (h : y = y' ∨ IsZero x) :
    SameNumber (x / y) (x' / y') := by
  by_cases heq : y = y'
  · exact heq ▸ hx.div_right y
  · have hzero := h.resolve_left heq
    have hzero' : IsZero x' := hx.elim (fun hx => hx ▸ hzero) And.right
    obtain ⟨hy, hy'⟩ := hy.resolve_left heq
    exact .inl (hzero.div hzero' hy hy')

end Operations

end Reckoner
