import Reckoner.Number.Nearest
import Reckoner.Proofs.Literals
import Reckoner.Proofs.NumberText
import Reckoner.Text.Literal.Value

/-!
# Literals are read as the nearest double

Each part of a literal is taken off a text with what it stands for, so a text is parsed to a sign
and a decimal exactly where it spells these (`spells_iff`). The double is the nearest one to the
number, and `readLiteral` refuses it if it is infinite (`readLiteral_iff_spells`).
-/

namespace Reckoner

open Binary64

section Parts

variable {cs sign ds run : List Char} {negative : Bool} {q : ℚ} {e : ℤ} {d : Decimal}

theorem SpellsSign.takeSign_append (h : SpellsSign sign negative)
    (hcs : Literal.takeSign cs = (false, cs)) :
    Literal.takeSign (sign ++ cs) = (negative, cs) := by
  cases h with
  | none => exact hcs
  | plus => rfl
  | minus => rfl

theorem exists_spellsSign (cs : List Char) :
    ∃ sign, SpellsSign sign (Literal.takeSign cs).1 ∧ cs = sign ++ (Literal.takeSign cs).2 := by
  unfold Literal.takeSign
  split
  · exact ⟨['+'], .plus, rfl⟩
  · exact ⟨['-'], .minus, rfl⟩
  · exact ⟨[], .none, rfl⟩

theorem Literal.digits?_eq_some_iff {n : Nat} :
    digits? ds = some n ↔ ds ≠ [] ∧ (∀ c ∈ ds, c.isDigit) ∧ Nat.ofDigitChars 10 ds 0 = n := by
  unfold digits?
  split
  · rename_i h
    simp only [Option.some.injEq]
    exact ⟨fun hn => ⟨h.1, List.all_eq_true.mp h.2, hn⟩, fun hn => hn.2.2⟩
  · rename_i h
    exact iff_of_false nofun fun hn => h ⟨hn.1, List.all_eq_true.mpr hn.2.1⟩

theorem Literal.exponent?_cons {letter : Char} (hletter : letter = 'e' ∨ letter = 'E')
    (cs : List Char) : exponent? (letter :: cs) = (digits? (takeSign cs).2).map fun n : Nat =>
      if (takeSign cs).1 then -(n : Int) else n := by
  cases h : digits? (takeSign cs).2 <;> simp [exponent?, hletter, h]

theorem spellsExponent_iff : SpellsExponent cs e ↔ Literal.exponent? cs = some e := by
  constructor
  · intro h
    cases h with
    | absent => rfl
    | present hletter hsign digits hne =>
      have htake := hsign.takeSign_append (takeSign_of_isDigit digits)
      rw [List.cons_append, Literal.exponent?_cons hletter, htake,
        Literal.digits?_eq_some_iff.mpr ⟨hne, digits, rfl⟩, Option.map_some]
  · intro h
    cases cs with
    | nil =>
      cases h
      exact .absent
    | cons letter cs =>
      by_cases hletter : letter = 'e' ∨ letter = 'E'
      · rw [Literal.exponent?_cons hletter, Option.map_eq_some_iff] at h
        obtain ⟨n, hn, rfl⟩ := h
        obtain ⟨hne, digits, rfl⟩ := Literal.digits?_eq_some_iff.mp hn
        obtain ⟨sign, hsign, hcs⟩ := exists_spellsSign cs
        have hpresent := SpellsExponent.present hletter hsign digits hne
        rwa [List.cons_append, ← hcs] at hpresent
      · simp [Literal.exponent?, hletter] at h

namespace Numeral

theorem decimal?_eq (h : whole run ++ fraction run ≠ []) :
    decimal? run = some ⟨Nat.ofDigitChars 10 (whole run ++ fraction run) 0,
      -((fraction run).length : Int)⟩ := by
  unfold decimal?
  split
  · exact absurd ‹_› h
  · rfl

theorem whole_fraction_of_isDigit (h : ∀ c ∈ ds, c.isDigit) :
    whole ds = ds ∧ fraction ds = [] := by
  have hne : ∀ c ∈ ds, decide (c ≠ '.') := fun c hc => decide_eq_true (ne_of_isDigit (h c hc) rfl)
  have hend : ∀ c ∈ ([] : List Char).head?, decide (c ≠ '.') = false := nofun
  have hrun := Json.takeWhile_dropWhile_append hne hend
  rw [List.append_nil] at hrun
  rw [whole, fraction, hrun.1, hrun.2]
  exact ⟨rfl, rfl⟩

theorem whole_fraction_pointed (h : ∀ c ∈ ds, c.isDigit) (es : List Char) :
    whole (ds ++ '.' :: es) = ds ∧ fraction (ds ++ '.' :: es) = es := by
  have hne : ∀ c ∈ ds, decide (c ≠ '.') := fun c hc => decide_eq_true (ne_of_isDigit (h c hc) rfl)
  have hpoint : ∀ c ∈ ('.' :: es).head?, decide (c ≠ '.') = false := by simp
  have hrun := Json.takeWhile_dropWhile_append hne hpoint
  rw [whole, fraction, hrun.1, hrun.2]
  exact ⟨rfl, rfl⟩

end Numeral

theorem SpellsNumeral.exists_decimal (h : SpellsNumeral run q) :
    ∃ d, Numeral.decimal? run = some d ∧ d.value = q := by
  cases h with
  | whole digits hne =>
    obtain ⟨hwhole, hfraction⟩ := Numeral.whole_fraction_of_isDigit digits
    refine ⟨_, Numeral.decimal?_eq (by rwa [hwhole, hfraction, List.append_nil]), ?_⟩
    rw [Decimal.value_neg, hwhole, hfraction, List.append_nil, List.length_nil, pow_zero,
      div_one]
  | @pointed ds es digits hne =>
    obtain ⟨hwhole, hfraction⟩ :=
      Numeral.whole_fraction_pointed (fun c hc => digits c (List.mem_append_left es hc)) es
    refine ⟨_, Numeral.decimal?_eq (by rwa [hwhole, hfraction]), ?_⟩
    rw [Decimal.value_neg, hwhole, hfraction]

theorem count_point_of_isDigit (h : ∀ c ∈ ds, c.isDigit) : ds.count '.' = 0 :=
  List.count_eq_zero.mpr fun hpoint => absurd (h '.' hpoint) (by decide)

theorem SpellsNumeral.isNumeral (h : SpellsNumeral run q) : IsNumeral run := by
  cases h with
  | whole digits hne =>
    obtain ⟨c, hc⟩ := List.exists_mem_of_ne_nil _ hne
    refine ⟨fun c hc => .inl (digits c hc), ?_, c, hc, digits c hc⟩
    rw [count_point_of_isDigit digits]
    exact Nat.zero_le 1
  | @pointed ds es digits hne =>
    obtain ⟨hds, hes⟩ := List.forall_mem_append.mp digits
    obtain ⟨c, hc⟩ := List.exists_mem_of_ne_nil _ hne
    refine ⟨fun c hc => ?_, ?_, c, ?_, digits c hc⟩
    · rcases List.mem_append.mp hc with hc | hc
      · exact .inl (hds c hc)
      · exact (List.mem_cons.mp hc).symm.imp_left (hes c)
    · rw [List.count_append, List.count_cons_self, count_point_of_isDigit hds,
        count_point_of_isDigit hes]
    · rcases List.mem_append.mp hc with hc | hc
      · exact List.mem_append_left _ hc
      · exact List.mem_append_right _ (List.mem_cons_of_mem _ hc)

/-- A numeral has no point but the one between its two parts. -/
theorem IsNumeral.isDigit_of_mem (h : IsNumeral run) :
    ∀ c ∈ Numeral.whole run ++ Numeral.fraction run, c.isDigit := by
  intro c hc
  rcases Numeral.eq_whole_or_append run with ⟨heq, hnil⟩ | heq
  · rw [hnil, List.append_nil] at hc
    exact (h.chars c (heq ▸ hc)).resolve_right (by simpa using List.mem_takeWhile_imp hc)
  · have hpoint := h.point
    have hmem : c ∈ run := by
      rw [heq]
      exact (List.mem_append.mp hc).elim (List.mem_append_left _)
        fun hc => List.mem_append_right _ (List.mem_cons_of_mem _ hc)
    refine (h.chars c hmem).resolve_right ?_
    rintro rfl
    have hpos := List.count_pos_iff.mpr hc
    rw [heq, List.count_append, List.count_cons_self] at hpoint
    rw [List.count_append] at hpos
    omega

theorem IsNumeral.spellsNumeral (h : IsNumeral run) (hd : Numeral.decimal? run = some d) :
    SpellsNumeral run d.value := by
  have hdigits := h.isDigit_of_mem
  have hne : Numeral.whole run ++ Numeral.fraction run ≠ [] := by
    intro hnil
    simp [Numeral.decimal?, hnil] at hd
  rw [Numeral.decimal?_eq hne, Option.some.injEq] at hd
  rw [← hd, Decimal.value_neg]
  rcases Numeral.eq_whole_or_append run with ⟨heq, hnil⟩ | heq
  · rw [hnil, List.append_nil, ← heq] at hdigits hne ⊢
    rw [List.length_nil, pow_zero, div_one]
    exact .whole hdigits hne
  · have hpointed := SpellsNumeral.pointed hdigits hne
    rwa [← heq] at hpointed

end Parts

section Literals

variable {cs : List Char} {negative : Bool} {q : ℚ} {v : Float} {l : Literal}

/-- A text is parsed exactly where it is a literal, and to what it spells. -/
theorem spells_iff : Spells cs negative q ↔
    ∃ l, Literal.parse? cs = some l ∧ l.negative = negative ∧ l.magnitude.value = q := by
  constructor
  · rintro @⟨sign, run, exponent, _, _, e, hsign, numeral, hexponent⟩
    have he := spellsExponent_iff.mp hexponent
    have hnumeral := numeral.isNumeral
    have hends := (Literal.isExponent_of_exponent? he).endsRun
    have hmagnitude := IsMagnitude.mk hnumeral (Literal.isExponent_of_exponent? he)
    have htake := hsign.takeSign_append hmagnitude.takeSign_eq
    have hrun := takeRun_append_of_endsRun hends true
    obtain ⟨d, hd, rfl⟩ := numeral.exists_decimal
    refine ⟨_, Literal.parse?_eq_some_iff.mpr ⟨d, ?_, e, ?_, rfl⟩, ?_, ?_⟩
    · rw [htake, hrun, hnumeral.takeRun_eq]
      exact hd
    · rw [htake, hrun, hnumeral.takeRun_eq]
      exact he
    · rw [htake]
    · exact Decimal.value_add ..
  · rintro ⟨l, hl, rfl, rfl⟩
    obtain ⟨d, hd, e, he, rfl⟩ := Literal.parse?_eq_some_iff.mp hl
    obtain ⟨sign, hsign, hcs⟩ := exists_spellsSign cs
    have hnumeral := (Literal.isNumeral_of_decimal? hd).spellsNumeral hd
    have hspells := Spells.mk hsign hnumeral (spellsExponent_iff.mpr he)
    rw [takeRun_append, ← hcs] at hspells
    rw [Decimal.value_add]
    exact hspells

theorem isLiteral_iff_spells : IsLiteral cs ↔ ∃ negative q, Spells cs negative q := by
  rw [isLiteral_iff]
  constructor
  · rintro ⟨l, hl⟩
    exact ⟨_, _, spells_iff.mpr ⟨l, hl, rfl, rfl⟩⟩
  · rintro ⟨negative, q, h⟩
    obtain ⟨l, hl, -⟩ := spells_iff.mp h
    exact ⟨l, hl⟩

theorem Literal.rounds_toFloat (l : Literal) :
    Rounds l.negative l.magnitude.value (ofFloat l.toFloat) :=
  Decimal.rounds_toFloat l.negative l.magnitude

theorem Literal.finite_iff : l.Finite ↔ IsFinite l.toFloat := by
  have hfloat : ofFloat l.toFloat = if l.Finite then .finite l.negative l.magnitude.index
      else .infinite l.negative := ofFloat_floatOfIndex l.negative l.magnitude.index
  rw [IsFinite, hfloat]
  split
  · exact iff_of_true ‹_› rfl
  · exact iff_of_false ‹_› Bool.false_ne_true

/-- The number that is spelled has one nearest double. -/
theorem eq_of_rounds {w : Float} (h : Rounds negative q (ofFloat v))
    (h' : Rounds negative q (ofFloat w)) : v = w :=
  ofFloat_inj (h.eq h')

theorem readDouble_of_parse? {text : String} (h : Literal.parse? text.toList = some l) :
    readDouble text = some l.toFloat := by
  unfold readDouble
  split
  · cases h
  · cases h
  · cases h
  · cases h
  · rw [h, Option.map_some]

theorem readLiteral_eq_none_of_mem {c : Char} (hc : c ∈ cs) (hdigit : ¬ c.isDigit)
    (hother : c ∉ ['.', 'e', 'E', '+', '-']) : readLiteral cs = none := by
  refine Option.eq_none_iff_forall_ne_some.mpr fun v hv => ?_
  exact (mem_of_readLiteral hv hc).elim hdigit hother

theorem exists_readDouble (h : Spells cs negative q) :
    ∃ v, readDouble (String.ofList cs) = some v ∧ Rounds negative q (ofFloat v) ∧
      readLiteral cs = if IsFinite v then some v else none := by
  obtain ⟨l, hl, rfl, rfl⟩ := spells_iff.mp h
  refine ⟨l.toFloat, readDouble_of_parse? ?_, l.rounds_toFloat, ?_⟩
  · rw [String.toList_ofList, hl]
  · simp only [readLiteral, hl, Literal.finite_iff]

/-- A text is read as a literal exactly where it spells a number whose nearest double is finite, and
is read as this double. Every text of the grammar is read as a double: it is refused only where the
double is infinite, from the midpoint of the greatest finite one and `2 ^ 1024` on. A text with any
other characters than those of decimal numbers is refused. -/
theorem readLiteral_iff_spells (cs : List Char) :
    (∀ v, readLiteral cs = some v ↔
      ∃ negative q, Spells cs negative q ∧ Rounds negative q (ofFloat v) ∧ IsFinite v) ∧
    (IsLiteral cs ↔ ∃ negative q, Spells cs negative q) ∧
    (∀ negative q, Spells cs negative q → ∃ v, readDouble (String.ofList cs) = some v ∧
      Rounds negative q (ofFloat v) ∧ (IsFinite v ↔ q < 2 ^ 1024 - 2 ^ 970) ∧
      readLiteral cs = if IsFinite v then some v else none) ∧
    ((∃ c ∈ cs, ¬ c.isDigit ∧ c ∉ ['.', 'e', 'E', '+', '-']) → readLiteral cs = none) := by
  refine ⟨fun v => ⟨fun h => ?_, ?_⟩, isLiteral_iff_spells, fun negative q h => ?_, ?_⟩
  · obtain ⟨l, hl, hfinite, rfl⟩ := readLiteral_eq_some_iff.mp h
    exact ⟨l.negative, l.magnitude.value, spells_iff.mpr ⟨l, hl, rfl, rfl⟩, l.rounds_toFloat,
      Literal.finite_iff.mp hfinite⟩
  · rintro ⟨negative, q, hspells, hrounds, hfinite⟩
    obtain ⟨w, -, hw, hread⟩ := exists_readDouble hspells
    rw [hread, eq_of_rounds hw hrounds, if_pos hfinite]
  · obtain ⟨v, hv, hrounds, hread⟩ := exists_readDouble h
    exact ⟨v, hv, hrounds, hrounds.isFinite_iff, hread⟩
  · rintro ⟨c, hc, hdigit, hother⟩
    exact readLiteral_eq_none_of_mem hc hdigit hother

theorem readLiteral_iff_spells_words :
    (Spells "-.5E1".toList true 5 ∧ ∃ v, readDouble (String.ofList "-.5E1".toList) = some v ∧
      Rounds true 5 (ofFloat v) ∧ (IsFinite v ↔ (5 : ℚ) < 2 ^ 1024 - 2 ^ 970) ∧
      readLiteral "-.5E1".toList = if IsFinite v then some v else none) ∧
    (∃ c ∈ "inf".toList, ¬ c.isDigit ∧ c ∉ ['.', 'e', 'E', '+', '-']) ∧
      readLiteral "inf".toList = none := by
  have hnumeral : SpellsNumeral ['.', '5'] ((5 : Nat) / 10 ^ 1) :=
    @SpellsNumeral.pointed [] ['5'] (by simp [Char.isDigit]) (List.cons_ne_nil _ _)
  have hexponent : SpellsExponent ['E', '1'] 1 :=
    @SpellsExponent.present 'E' [] ['1'] false (.inr rfl) .none (by simp [Char.isDigit])
      (List.cons_ne_nil _ _)
  have hspells : Spells "-.5E1".toList true 5 := by
    have hvalue : ((5 : Nat) / 10 ^ 1 * 10 ^ (1 : ℤ) : ℚ) = 5 := by norm_num
    exact hvalue ▸ Spells.mk .minus hnumeral hexponent
  have hletter : ∃ c ∈ "inf".toList, ¬ c.isDigit ∧ c ∉ ['.', 'e', 'E', '+', '-'] :=
    ⟨'i', List.mem_cons_self, by decide, by decide⟩
  exact ⟨⟨hspells, (readLiteral_iff_spells _).2.2.1 _ _ hspells⟩, hletter,
    (readLiteral_iff_spells _).2.2.2 hletter⟩

end Literals

end Reckoner
