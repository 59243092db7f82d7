import Reckoner.Number.Grid.SignedZero
import Reckoner.Proofs.StepTexts
import Reckoner.Reply
import Reckoner.Rpn.Replay

/-!
# The working repeats the calculation

A number that is whole, or not near a whole one, is read back from its text, but for the sign of a
zero (`IsShown.exists_readDouble`), which no operator but a division and a power takes into account.
So the value of a line is found again from the texts of its operands where these show what counts
(`Step.IsShown.replays`), and that of a negation always. The lines of an expression are such lines
(`replays_of_toExpression`); a number near a whole one, or the sign of a divisor, can be lost
(`not_replays_hidden`).
-/

namespace Reckoner

open Binary64 Layout

section Operands

variable {x y a a' b b' : Float} {negative : Bool} {n : Nat} {op : BinaryOp}

theorem stepText_of_isZero (h : IsZero x) : stepText x = "0" := by
  obtain ⟨negative, hx⟩ := h
  have hgrid : gridPoint 0 = 0 * one := by rw [gridPoint_zero, Nat.zero_mul]
  rw [stepText_of_nearWhole hx (nearWhole_of_gridPoint hgrid), nearestWhole_of_gridPoint hgrid,
    wholeText, bne_self_eq_false, Bool.and_false]
  rfl

/-- The sign of a zero is not written. -/
theorem SameNumber.stepText_eq (h : SameNumber x y) : stepText x = stepText y := by
  rcases h with rfl | ⟨hx, hy⟩
  · rfl
  · rw [stepText_of_isZero hx, stepText_of_isZero hy]

theorem eq_neg_zero (h : ofFloat x = .finite true 0) : x = -0 := by
  have hzero : ofFloat (-0) = .finite true 0 := ofFloat_neg ofFloat_zero
  exact ofFloat_inj (h.trans hzero.symm)

theorem isZero_of_rational (hx : IsFinite x) (h : rational x = 0) : IsZero x := by
  obtain ⟨negative, n, hfloat⟩ := exists_ofFloat hx
  have hmagnitude := abs_rational_of_ofFloat hfloat
  rw [h, abs_zero, ← magnitude_zero] at hmagnitude
  have hle := magnitude_le_iff.mp hmagnitude.ge
  obtain rfl : n = 0 := Nat.le_zero.mp hle
  exact ⟨negative, hfloat⟩

/-- A number that is shown is read back, but for the sign of a zero. -/
theorem IsShown.exists_readDouble (h : IsShown x) :
    ∃ y, readDouble (stepText x) = some y ∧ SameNumber x y ∧ (x ≠ -0 → x = y) := by
  obtain ⟨negative, n, hx⟩ := exists_ofFloat h.isFinite
  by_cases hnear : NearWhole n
  · have hwhole := h.exact.resolve_right fun hfar => (farFromWhole_iff hx).mp hfar hnear
    have hgrid := hwhole.gridPoint_eq hx
    obtain ⟨y, m, hread, -, hy, hm⟩ := stepText_nearWhole hx hnear
    obtain rfl : m = n := gridPoint_injective (hm.trans hgrid.symm)
    refine ⟨y, hread, ?_⟩
    by_cases hzero : nearestWhole m = 0
    · have hindex : gridPoint m = gridPoint 0 := by rw [hgrid, hzero, Nat.zero_mul, gridPoint_zero]
      obtain rfl : m = 0 := gridPoint_injective hindex
      rw [hzero, bne_self_eq_false, Bool.and_false] at hy
      refine ⟨.inr ⟨⟨_, hx⟩, ⟨_, hy⟩⟩, fun hne => ofFloat_inj ?_⟩
      cases negative with
      | true => exact absurd (eq_neg_zero hx) hne
      | false => rw [hx, hy]
    · rw [bne_iff_ne.mpr hzero, Bool.and_true] at hy
      obtain rfl : x = y := ofFloat_inj (hx.trans hy.symm)
      exact ⟨.inl rfl, fun _ => rfl⟩
  · rw [stepText_of_not_nearWhole hx hnear]
    exact ⟨x, readDouble_plainText x, .inl rfl, fun _ => rfl⟩

theorem isShown_of_ofFloat (hx : ofFloat x = .finite negative n)
    (h : gridPoint n = nearestWhole n * one ∨ ¬ NearWhole n) : IsShown x where
  isFinite := isFinite_of_ofFloat hx
  exact := h.imp (isWhole_of_gridPoint hx) (farFromWhole_iff hx).mpr

/-- The text of a negated number depends only on the text of the number. -/
theorem exists_readDouble_neg (h : IsFinite x) :
    ∃ y, readDouble (stepText x) = some y ∧ stepText (-y) = stepText (-x) := by
  obtain ⟨negative, n, hx⟩ := exists_ofFloat h
  by_cases hnear : NearWhole n
  · obtain ⟨y, m, hread, -, hy, hm⟩ := stepText_nearWhole hx hnear
    refine ⟨y, hread, ?_⟩
    rw [stepText_of_nearWhole (ofFloat_neg hy) (nearWhole_of_gridPoint hm),
      nearestWhole_of_gridPoint hm, stepText_of_nearWhole (ofFloat_neg hx) hnear]
    have hsign : ∀ a b : Bool, (!(a && b) && b) = (!a && b) := by decide
    rw [wholeText, wholeText, hsign]
  · rw [stepText_of_not_nearWhole hx hnear]
    exact ⟨x, readDouble_plainText x, rfl⟩

theorem SameNumber.apply (ha : SameNumber a a') (hb : SameNumber b b')
    (hdiv : op = .div → b = b' ∨ IsZero a) (hpow : op = .pow → a = a' ∧ b = b') :
    SameNumber (op.apply a b) (op.apply a' b') := by
  cases op with
  | add => exact ha.add hb
  | sub => exact ha.sub hb
  | mul => exact ha.mul hb
  | div => exact ha.div hb (hdiv rfl)
  | pow =>
    obtain ⟨rfl, rfl⟩ := hpow rfl
    exact .inl rfl

end Operands

/-- A step whose operands are shown is repeated by its line. -/
theorem Step.IsShown.replays {s : Step} (h : s.IsShown) : (s.line.map stepText).Replays := by
  cases s with
  | negation operand => exact exists_readDouble_neg h
  | operation op left right =>
    obtain ⟨hleft, hright, hdiv, hpow⟩ := h
    obtain ⟨x, hx, hsame, hreadx⟩ := hleft.exists_readDouble
    obtain ⟨y, hy, hsame', hready⟩ := hright.exists_readDouble
    refine ⟨x, y, hx, hy, (SameNumber.apply hsame hsame' ?_ ?_).stepText_eq.symm⟩
    · intro hop
      by_cases hzero : right = -0
      · exact .inr (isZero_of_rational hleft.isFinite (hdiv hop hzero))
      · exact .inl (hready hzero)
    · intro hop
      exact ⟨hreadx (hpow hop).1, hready (hpow hop).2⟩

/-- The lines of an evaluated expression are its steps, in their order, and a line is repeated from
its own texts if the operands of its step are shown. -/
theorem replays_of_toExpression {text expression : String} {lines : List String} {result : Float}
    (h : Reply.toExpression text = .evaluated expression lines result) :
    ∃ c, calculate text = .ok c ∧ lines = c.steps.map (fun s => (s.line.map stepText).text) ∧
      ∀ s ∈ c.steps, s.IsShown → (s.line.map stepText).Replays := by
  unfold Reply.toExpression at h
  cases hcalc : calculate text with
  | error fault =>
    rw [hcalc] at h
    cases h
  | ok c =>
    rw [hcalc] at h
    obtain ⟨-, rfl, -⟩ := Reply.evaluated.inj h
    exact ⟨c, rfl, List.map_congr_left fun s _ => s.text_eq, fun s _ hs => hs.replays⟩

theorem replays_negated_sum :
    Reply.toExpression "-(1+2.5)" =
        .evaluated "-(1+2.5)" ["1 + 2.5 = 3.5", "negate(3.5) = -3.5"] (-3.5) ∧
      ∃ c, calculate "-(1+2.5)" = .ok c ∧ c.steps = [.operation .add 1 2.5, .negation 3.5] ∧
        ∀ s ∈ c.steps, s.IsShown ∧ (s.line.map stepText).Replays := by
  have hreply : Reply.toExpression "-(1+2.5)" =
      .evaluated "-(1+2.5)" ["1 + 2.5 = 3.5", "negate(3.5) = -3.5"] (-3.5) := by decide +kernel
  have hsteps : (calculate "-(1+2.5)").map Calculation.steps =
      .ok [.operation .add 1 2.5, .negation 3.5] := by decide +kernel
  obtain ⟨c, hc, -, hreplays⟩ := replays_of_toExpression hreply
  rw [hc] at hsteps
  have hsteps : c.steps = [.operation .add 1 2.5, .negation 3.5] := Except.ok.inj hsteps
  have hone : ofFloat 1 = .finite false 0x3FF0000000000000 := rfl
  have hright : ofFloat 2.5 = .finite false 0x4004000000000000 := rfl
  have hleftShown := isShown_of_ofFloat hone (.inl (by decide +kernel))
  have hrightShown := isShown_of_ofFloat hright (.inr (by decide +kernel))
  have hsum : IsFinite 3.5 := by decide
  have hshown : ∀ s ∈ c.steps, s.IsShown := by
    rw [hsteps]
    simp only [List.forall_mem_cons, List.not_mem_nil, false_imp_iff, implies_true, and_true]
    exact ⟨⟨hleftShown, hrightShown, nofun, nofun⟩, hsum⟩
  exact ⟨hreply, c, hc, hsteps, fun s hs => ⟨hshown s hs, hreplays s hs (hshown s hs)⟩⟩

/-- A factor that is shown as zero is not zero, and neither is the sign of a zero that is shown
without it. -/
theorem not_replays_hidden :
    (Reply.toExpression "0.0000000001*10000000000" =
        .evaluated "0.0000000001*10000000000" ["0 * 10000000000 = 1"] 1 ∧
      (calculate "0.0000000001*10000000000").map Calculation.steps =
        .ok [.operation .mul 1e-10 1e10] ∧
      IsFinite 1e-10 ∧ IsFinite 1e10 ∧
      ¬ ((Step.operation .mul 1e-10 1e10).line.map stepText).Replays) ∧
    Reply.toExpression "1/(-0)" = .evaluated "1/(-0)" ["negate(0) = 0", "1 / 0 = -inf"] (-infinity) ∧
      (calculate "1/(-0)").map Calculation.steps = .ok [.negation 0, .operation .div 1 (-0)] ∧
      IsFinite 1 ∧ IsFinite (-0) ∧
      ¬ ((Step.operation .div 1 (-0)).line.map stepText).Replays := by
  refine ⟨⟨by decide +kernel, by decide +kernel, by decide, by decide, ?_⟩,
    by decide +kernel, by decide +kernel, by decide, by decide, ?_⟩
  · rintro ⟨x, y, hx, hy, h⟩
    have hleft : readDouble (stepText 1e-10) = some 0 := by decide +kernel
    have hright : readDouble (stepText 1e10) = some 1e10 := by decide +kernel
    obtain rfl : 0 = x := Option.some.inj (hleft.symm.trans hx)
    obtain rfl : 1e10 = y := Option.some.inj (hright.symm.trans hy)
    exact absurd h (by decide +kernel)
  · rintro ⟨x, y, hx, hy, h⟩
    have hleft : readDouble (stepText 1) = some 1 := by decide +kernel
    have hright : readDouble (stepText (-0)) = some 0 := by decide +kernel
    obtain rfl : 1 = x := Option.some.inj (hleft.symm.trans hx)
    obtain rfl : 0 = y := Option.some.inj (hright.symm.trans hy)
    exact absurd h (by decide +kernel)

end Reckoner
