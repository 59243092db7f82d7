import Reckoner.Json.Scanner
import Reckoner.Number.Grid.Bits
import Reckoner.Number.Layout
import Reckoner.Number.Shortest.Lemmas
import Reckoner.Text.Literal.Lemmas

/-!
# The text of a number is read back

A JSON number is read by its parts: `number?_parts` says what a whole part, a fraction and an
exponent stand for together. Each layout has such parts, and they stand for the shortest decimal, or
for the same number with one more zero. So the text of a finite double is read as this double
(`number?_of_jsonText?`), bit by bit.
-/

namespace Reckoner

open Layout Binary64

namespace Layout

section Digits

variable {n : Nat}

theorem isDigit_of_mem_digits {c : Char} (h : c ∈ digits n) : c.isDigit = true :=
  Nat.isDigit_of_mem_toDigits (by decide) (by decide) h

theorem ofDigitChars_digits (n : Nat) : Nat.ofDigitChars 10 (digits n) 0 = n :=
  Nat.ofDigitChars_toDigits (by decide) (by decide)

theorem digitChar_ne_zero : ∀ n < 10, 0 < n → Nat.digitChar n ≠ '0' := by decide

/-- The first digit of a positive number is no zero. -/
theorem exists_digits_eq_cons (h : 0 < n) : ∃ c ds, digits n = c :: ds ∧ c ≠ '0' := by
  induction n using Nat.strongRecOn with
  | ind n ih =>
    by_cases hlt : n < 10
    · exact ⟨_, [], Nat.toDigits_of_lt_base hlt, digitChar_ne_zero n hlt h⟩
    · have hsplit : digits n = digits (n / 10) ++ [Nat.digitChar (n % 10)] :=
        Nat.toDigits_of_base_le (by decide) (Nat.le_of_not_lt hlt)
      obtain ⟨c, ds, hds, hc⟩ := ih (n / 10) (by omega) (by omega)
      exact ⟨c, ds ++ [_], by rw [hsplit, hds]; rfl, hc⟩

end Digits

/-- The digits after a point, with the point; nothing if there are none. -/
def pointed : List Char → List Char
  | [] => []
  | ds => '.' :: ds

end Layout

namespace Json

variable {cs ds exponent whole fraction : List Char} {negative : Bool} {e : Int}

section Parts

/-- A run ends where the characters of another kind start. -/
theorem takeWhile_dropWhile_append {p : Char → Bool} (hds : ∀ c ∈ ds, p c)
    (hcs : ∀ c ∈ cs.head?, p c = false) :
    (ds ++ cs).takeWhile p = ds ∧ (ds ++ cs).dropWhile p = cs := by
  rw [List.takeWhile_append_of_pos hds, List.dropWhile_append_of_pos hds]
  cases cs with
  | nil => simp
  | cons c cs => simp [hcs c rfl]

theorem head?_of_exponent? (h : Literal.exponent? exponent = some e) {c : Char}
    (hc : c ∈ exponent.head?) : c = 'e' ∨ c = 'E' := by
  cases exponent with
  | nil => cases hc
  | cons d ds =>
    obtain rfl := Option.some.inj hc
    refine Decidable.byContradiction fun hletter => ?_
    simp [Literal.exponent?, hletter] at h

/-- The digits in front of a fraction and an exponent end there. -/
theorem isDigit_head?_pointed (hexponent : Literal.exponent? exponent = some e)
    (fraction : List Char) : ∀ c ∈ (pointed fraction ++ exponent).head?, c.isDigit = false := by
  intro c hc
  cases fraction with
  | nil => rcases head?_of_exponent? hexponent hc with rfl | rfl <;> rfl
  | cons d ds =>
    obtain rfl := Option.some.inj hc
    rfl

theorem takeMinus_sign (negative : Bool) {c : Char} (hc : c ≠ '-') (cs : List Char) :
    takeMinus (sign negative ++ c :: cs) = (negative, c :: cs) := by
  cases negative with
  | true => rfl
  | false =>
    show takeMinus (c :: cs) = _
    unfold takeMinus
    split
    · rename_i heq
      exact absurd (List.cons.inj heq).1 hc
    · rfl

theorem fraction?_pointed (hfraction : ∀ c ∈ fraction, c.isDigit)
    (hexponent : Literal.exponent? exponent = some e) :
    fraction? (pointed fraction ++ exponent) = some (fraction, exponent) := by
  cases fraction with
  | nil =>
    have hpoint : ∀ cs, exponent ≠ '.' :: cs := by
      rintro cs rfl
      rcases head?_of_exponent? hexponent rfl with h | h <;> cases h
    show fraction? exponent = _
    unfold fraction?
    split
    · exact absurd rfl (hpoint _)
    · rfl
  | cons c ds =>
    obtain ⟨htake, hdrop⟩ :=
      takeWhile_dropWhile_append hfraction (isDigit_head?_pointed hexponent [])
    show fraction? ('.' :: (c :: ds ++ exponent)) = some (c :: ds, exponent)
    rw [pointed, List.nil_append] at htake hdrop
    simp only [fraction?, htake, hdrop]
    rfl

/-- A number stands for its digits, moved by the exponent and by the length of the fraction. -/
theorem number?_parts (negative : Bool) {whole : List Char} (hwhole : ∀ c ∈ whole, c.isDigit)
    (hzero : isWhole whole) (fraction : List Char) (hfraction : ∀ c ∈ fraction, c.isDigit)
    (hexponent : Literal.exponent? exponent = some e) :
    number? (sign negative ++ (whole ++ (pointed fraction ++ exponent))) =
      some (Literal.toFloat ⟨negative,
        ⟨Nat.ofDigitChars 10 (whole ++ fraction) 0, e - fraction.length⟩⟩) := by
  have hminus : takeMinus (sign negative ++ (whole ++ (pointed fraction ++ exponent))) =
      (negative, whole ++ (pointed fraction ++ exponent)) := by
    cases whole with
    | nil => cases hzero
    | cons c ds => exact takeMinus_sign negative (ne_of_isDigit (hwhole c (by simp)) rfl) _
  obtain ⟨htake, hdrop⟩ :=
    takeWhile_dropWhile_append hwhole (isDigit_head?_pointed hexponent fraction)
  simp only [number?, hminus, htake, hdrop, fraction?_pointed hfraction hexponent, hexponent,
    Option.bind_eq_bind, Option.bind_some, hzero, if_true]
  rfl

end Parts

section Layouts

variable {d : Decimal}

theorem isWhole_cons {c : Char} (h : c ≠ '0') (ds : List Char) : isWhole (c :: ds) := by
  cases ds with
  | nil => rfl
  | cons c' ds => simpa [isWhole] using h

theorem isDigit_of_mem_zeros {n : Nat} {c : Char} (h : c ∈ zeros n) : c.isDigit := by
  rw [List.eq_of_mem_replicate h]
  rfl

theorem isDigit_of_mem_zero : ∀ c ∈ ['0'], c.isDigit := by simp

theorem number?_point (negative : Bool) (hwhole : ∀ c ∈ whole, c.isDigit) (hzero : isWhole whole)
    (hfraction : ∀ c ∈ fraction, c.isDigit) (hne : fraction ≠ []) :
    number? (sign negative ++ (whole ++ '.' :: fraction)) =
      some (Literal.toFloat ⟨negative,
        ⟨Nat.ofDigitChars 10 (whole ++ fraction) 0, -fraction.length⟩⟩) := by
  obtain ⟨c, ds, rfl⟩ := List.exists_cons_of_ne_nil hne
  have hnil : Literal.exponent? [] = some 0 := rfl
  have hparts := number?_parts negative hwhole hzero (c :: ds) hfraction hnil
  rw [List.append_nil, Int.zero_sub] at hparts
  exact hparts

theorem number?_zero (negative : Bool) :
    number? (sign negative ++ "0.0".toList) = some (Literal.toFloat ⟨negative, ⟨0, -1⟩⟩) :=
  number?_point negative isDigit_of_mem_zero rfl isDigit_of_mem_zero (List.cons_ne_nil '0' [])

theorem number?_positional_whole (negative : Bool) (hd : 0 < d.digits) (he : 0 ≤ d.exponent) :
    number? (sign negative ++ positional ['.', '0'] d) =
      some (Literal.toFloat ⟨negative, ⟨d.digits * Nat.pow 10 (d.exponent.toNat + 1), -1⟩⟩) := by
  have hdigits : ∀ c ∈ digits d.digits ++ zeros d.exponent.toNat, c.isDigit := by
    intro c hc
    exact (List.mem_append.mp hc).elim isDigit_of_mem_digits isDigit_of_mem_zeros
  have hwhole : isWhole (digits d.digits ++ zeros d.exponent.toNat) := by
    obtain ⟨c, ds, hds, hc⟩ := exists_digits_eq_cons hd
    rw [hds]
    exact isWhole_cons hc _
  have hvalue : Nat.ofDigitChars 10 (digits d.digits ++ zeros d.exponent.toNat ++ ['0']) 0 =
      d.digits * Nat.pow 10 (d.exponent.toNat + 1) := by
    have hzeros : zeros d.exponent.toNat ++ ['0'] = zeros (d.exponent.toNat + 1) :=
      List.replicate_succ'.symm
    rw [List.append_assoc, hzeros, Nat.ofDigitChars_append, ofDigitChars_digits, zeros,
      Nat.ofDigitChars_replicate_zero, Nat.mul_comm]
    rfl
  have hpoint := number?_point negative hdigits hwhole isDigit_of_mem_zero (List.cons_ne_nil '0' [])
  rw [hvalue] at hpoint
  rw [positional, if_pos he]
  exact hpoint

theorem number?_positional_point (negative : Bool) (hd : 0 < d.digits) (he : d.exponent < 0)
    (hp : 0 < pointPlace d) :
    number? (sign negative ++ positional ['.', '0'] d) = some (Literal.toFloat ⟨negative, d⟩) := by
  have hplace : pointPlace d = (digits d.digits).length + d.exponent := rfl
  obtain ⟨k, hk⟩ : ∃ k : Nat, (pointPlace d).toNat = k + 1 := ⟨(pointPlace d).toNat - 1, by omega⟩
  have hwhole : isWhole ((digits d.digits).take (k + 1)) := by
    obtain ⟨c, ds, hds, hc⟩ := exists_digits_eq_cons hd
    rw [hds]
    exact isWhole_cons hc _
  have hlength : ((digits d.digits).drop (k + 1)).length = -d.exponent := by
    rw [List.length_drop]
    omega
  have hne : (digits d.digits).drop (k + 1) ≠ [] := by
    rw [← List.length_pos_iff]
    omega
  have hfront : ∀ c ∈ (digits d.digits).take (k + 1), c.isDigit :=
    fun c hc => isDigit_of_mem_digits (List.mem_of_mem_take hc)
  have hback : ∀ c ∈ (digits d.digits).drop (k + 1), c.isDigit :=
    fun c hc => isDigit_of_mem_digits (List.mem_of_mem_drop hc)
  have hpoint := number?_point negative hfront hwhole hback hne
  rw [List.take_append_drop, ofDigitChars_digits, hlength, Int.neg_neg] at hpoint
  rw [positional, if_neg (by omega), if_pos hp, hk]
  exact hpoint

theorem number?_positional_small (negative : Bool) (he : d.exponent < 0) (hp : pointPlace d ≤ 0) :
    number? (sign negative ++ positional ['.', '0'] d) = some (Literal.toFloat ⟨negative, d⟩) := by
  have hplace : pointPlace d = (digits d.digits).length + d.exponent := rfl
  have hdigits : ∀ c ∈ zeros (-pointPlace d).toNat ++ digits d.digits, c.isDigit := by
    intro c hc
    exact (List.mem_append.mp hc).elim isDigit_of_mem_zeros isDigit_of_mem_digits
  have hlength : ((zeros (-pointPlace d).toNat ++ digits d.digits).length : Int) = -d.exponent := by
    rw [List.length_append, zeros, List.length_replicate]
    omega
  have hvalue : Nat.ofDigitChars 10
      (['0'] ++ (zeros (-pointPlace d).toNat ++ digits d.digits)) 0 = d.digits := by
    rw [Nat.ofDigitChars_append, Nat.ofDigitChars_append, zeros, Nat.ofDigitChars_replicate_zero]
    exact ofDigitChars_digits d.digits
  have hne : zeros (-pointPlace d).toNat ++ digits d.digits ≠ [] :=
    List.append_ne_nil_of_right_ne_nil _ (digits_ne_nil d.digits)
  have hpoint := number?_point negative isDigit_of_mem_zero rfl hdigits hne
  rw [hvalue, hlength, Int.neg_neg] at hpoint
  rw [positional, if_neg (by omega), if_neg (by omega)]
  exact hpoint

theorem exponent?_minus (ds : List Char) :
    Literal.exponent? ('e' :: '-' :: ds) = (Literal.digits? ds).map fun n : Nat => -(n : Int) := by
  cases h : Literal.digits? ds <;> simp [Literal.exponent?, Literal.takeSign, h]

theorem exponent?_plus (ds : List Char) :
    Literal.exponent? ('e' :: '+' :: ds) = (Literal.digits? ds).map fun n : Nat => (n : Int) := by
  cases h : Literal.digits? ds <;> simp [Literal.exponent?, Literal.takeSign, h]

theorem exponent?_eq (e : Int) :
    Literal.exponent? ('e' :: (if e < 0 then '-' else '+') :: digits e.natAbs) = some e := by
  have hdigits : Literal.digits? (digits e.natAbs) = some e.natAbs := by
    have hall : (digits e.natAbs).all Char.isDigit :=
      List.all_eq_true.mpr fun c hc => isDigit_of_mem_digits hc
    rw [Literal.digits?, if_pos ⟨digits_ne_nil _, hall⟩, ofDigitChars_digits]
  by_cases he : e < 0
  · have hneg : -(e.natAbs : Int) = e := by omega
    rw [if_pos he, exponent?_minus, hdigits, Option.map_some, hneg]
  · have hpos : (e.natAbs : Int) = e := by omega
    rw [if_neg he, exponent?_plus, hdigits, Option.map_some, hpos]

theorem number?_scientific (negative : Bool) (d : Decimal) :
    number? (sign negative ++ scientific d) = some (Literal.toFloat ⟨negative, d⟩) := by
  have hplace : pointPlace d = (digits d.digits).length + d.exponent := rfl
  obtain ⟨c, ds, hds⟩ := List.exists_cons_of_ne_nil (digits_ne_nil d.digits)
  have hdigits : ∀ c' ∈ c :: ds, c'.isDigit := fun c' hc' => isDigit_of_mem_digits (hds ▸ hc')
  have hwhole : ∀ c' ∈ [c], c'.isDigit := fun c' hc' =>
    hdigits c' (List.mem_cons.mpr (.inl (List.mem_singleton.mp hc')))
  have hexponent := exponent?_eq (pointPlace d - 1)
  have hparts := number?_parts negative hwhole rfl ds
    (fun c' hc' => hdigits c' (List.mem_cons_of_mem c hc')) hexponent
  have hvalue : Nat.ofDigitChars 10 ([c] ++ ds) 0 = d.digits :=
    (congrArg (Nat.ofDigitChars 10 · 0) hds.symm).trans (ofDigitChars_digits d.digits)
  have he : pointPlace d - 1 - ds.length = d.exponent := by
    rw [hds, List.length_cons] at hplace
    omega
  rw [hvalue, he] at hparts
  rw [← hparts, scientific, hds]
  cases ds <;> rfl

end Layouts

section Doubles

variable {n : Nat} {x : Float}

theorem toFloat_of_index (negative : Bool) {d : Decimal} (h : d.index = n) :
    Literal.toFloat ⟨negative, d⟩ = Binary64.toFloat (.finite negative n) := by
  simp only [Literal.toFloat, Decimal.toFloat, h]
  rfl

theorem number?_json? {negative : Bool} {cs : List Char} (hfin : n < infinityIndex)
    (h : Layout.json? (.finite negative n) = some cs) :
    number? cs = some (Binary64.toFloat (.finite negative n)) := by
  cases n with
  | zero =>
    obtain rfl := Option.some.inj h
    rw [number?_zero]
    exact congrArg some (toFloat_of_index negative rfl)
  | succ n =>
    have hpos := digits_shortest_pos .toEven (Nat.succ_pos n)
    have hindex := toFloat_of_index negative (index_shortest .toEven (Nat.succ_pos n) hfin)
    obtain rfl := Option.some.inj h
    split
    · by_cases he : 0 ≤ (shortest .toEven (n + 1)).exponent
      · rw [number?_positional_whole negative hpos he]
        exact congrArg some
          (toFloat_of_index negative (index_shortest_scaled .toEven (Nat.succ_pos n) hfin he))
      · by_cases hp : 0 < pointPlace (shortest .toEven (n + 1))
        · rw [number?_positional_point negative hpos (Int.lt_of_not_ge he) hp, hindex]
        · rw [number?_positional_small negative (Int.lt_of_not_ge he) (Int.le_of_not_gt hp), hindex]
    · rw [number?_scientific, hindex]

theorem number?_of_jsonText? {text : String} (h : jsonText? x = some text) :
    number? text.toList = some x := by
  obtain ⟨cs, hcs, rfl⟩ := Option.map_eq_some_iff.mp h
  rw [String.toList_ofList]
  cases hx : Binary64.ofFloat x with
  | nan =>
    rw [hx] at hcs
    cases hcs
  | infinite negative =>
    rw [hx] at hcs
    cases hcs
  | finite negative n =>
    rw [hx] at hcs
    rw [number?_json? (lt_of_ofFloat hx) hcs, ← hx, toFloat_ofFloat]

/-- Where there is no text, the number is one of the three that have a word. -/
theorem not_finite_of_jsonText? (h : jsonText? x = none) :
    x = notANumber ∨ x = infinity ∨ x = -infinity := by
  have hcs := Option.map_eq_none_iff.mp h
  have hfloat := toFloat_ofFloat x
  cases hx : Binary64.ofFloat x with
  | nan =>
    rw [hx] at hfloat
    exact .inl hfloat.symm
  | infinite negative =>
    rw [hx] at hfloat
    cases negative
    · exact .inr (.inl hfloat.symm)
    · exact .inr (.inr hfloat.symm)
  | finite negative n =>
    rw [hx] at hcs
    cases n <;> cases hcs

end Doubles

section Characters

variable {rest : List Char} {x : Float} {c : Char}

theorem mem_of_takeMinus (h : c ∈ cs) : c = '-' ∨ c ∈ (takeMinus cs).2 := by
  unfold takeMinus
  split
  · exact List.mem_cons.mp h
  · exact .inr h

theorem mem_of_takeWhile (h : c ∈ cs) : c.isDigit ∨ c ∈ cs.dropWhile Char.isDigit := by
  rw [← List.takeWhile_append_dropWhile (p := Char.isDigit) (l := cs)] at h
  exact (List.mem_append.mp h).imp_left (List.all_eq_true.mp List.all_takeWhile c)

theorem mem_of_fraction? (h : fraction? cs = some (fraction, rest)) (hc : c ∈ cs) :
    c.isDigit ∨ c = '.' ∨ c ∈ rest := by
  unfold fraction? at h
  split at h
  · simp only at h
    split at h
    · cases h
    · cases h
      rcases List.mem_cons.mp hc with rfl | hc
      · exact .inr (.inl rfl)
      · exact (mem_of_takeWhile hc).imp_right .inr
  · cases h
    exact .inr (.inr hc)

/-- A text that is read as a number has no other characters than those of numbers. -/
theorem isNumberChar_of_number? (h : number? cs = some x) (hc : c ∈ cs) : isNumberChar c := by
  simp only [number?, Option.bind_eq_bind, Option.bind_eq_some_iff] at h
  obtain ⟨⟨fraction, rest⟩, hfraction, e, hexponent, -⟩ := h
  rcases mem_of_takeMinus hc with rfl | hc
  · rfl
  · rcases mem_of_takeWhile hc with hd | hc
    · simp [isNumberChar, hd]
    · rcases mem_of_fraction? hfraction hc with hd | rfl | hc
      · simp [isNumberChar, hd]
      · rfl
      · rcases Literal.mem_of_exponent? hexponent hc with hd | hc
        · simp [isNumberChar, hd]
        · simp only [List.mem_cons, List.not_mem_nil, or_false] at hc
          rcases hc with rfl | rfl | rfl | rfl <;> rfl

end Characters

end Json

end Reckoner
