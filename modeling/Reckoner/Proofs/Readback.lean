import Reckoner.Proofs.Replays
import Reckoner.Rpn.Readback

/-!
# Lines of tokens are read back

The text of a number is read as the number that it shows (`readDouble_stepText`). The symbol of an
operator is read as no number, so it is the text of no number, and no text of a token has a space in
it. So a line falls into the texts of its tokens (`pieces_readable`), and from these the tokens that
are shown are read (`readTokens?_readable`). These are the tokens themselves where all numbers are
shown in full (`shown_eq_self_iff`).
-/

namespace Reckoner

open Binary64 Layout

/-! ### Numbers -/

section Numbers

variable {x y : Float} {negative : Bool} {m n : Nat}

theorem shownValue_of_not_nearWhole (h : ofFloat x = .finite negative n) (hfar : ¬ NearWhole n) :
    shownValue x = x := by
  rw [shownValue, if_neg]
  rwa [abs_sub_roundWhole_lt_iff h]

theorem shownValue_of_not_isFinite (h : ¬ IsFinite x) : shownValue x = x := by
  rw [shownValue, if_neg (not_abs_sub_roundWhole_lt h)]

/-- Near a whole number this number is shown, and zero without its sign. -/
theorem ofFloat_shownValue (h : ofFloat x = .finite negative n) (hnear : NearWhole n) :
    ∃ m, ofFloat (shownValue x) = .finite (negative && nearestWhole n != 0) m ∧
      gridPoint m = nearestWhole n * one := by
  obtain ⟨m, hm, hgrid⟩ := ofFloat_roundWhole h
  have hzero : rational (roundWhole x) = 0 ↔ nearestWhole n = 0 := by
    rw [← abs_eq_zero, abs_rational_of_ofFloat hm, magnitude_eq_iff.mpr hgrid, Nat.cast_eq_zero]
  refine ⟨m, ?_, hgrid⟩
  rw [shownValue, if_pos ((abs_sub_roundWhole_lt_iff h).mpr hnear)]
  by_cases hw : nearestWhole n = 0
  · have hindex : gridPoint m = gridPoint 0 := by rw [hgrid, hw, Nat.zero_mul, gridPoint_zero]
    rw [if_pos (hzero.mpr hw), gridPoint_injective hindex, ofFloat_zero]
    simp [hw]
  · rw [if_neg (mt hzero.mp hw), hm]
    simp [hw]

/-- The text of a number is read as the number that it shows. -/
theorem readDouble_stepText (x : Float) : readDouble (stepText x) = some (shownValue x) := by
  by_cases hfinite : IsFinite x
  · obtain ⟨negative, n, hx⟩ := exists_ofFloat hfinite
    by_cases hnear : NearWhole n
    · obtain ⟨y, m, hread, -, hy, hm⟩ := stepText_nearWhole hx hnear
      obtain ⟨m', hshown, hm'⟩ := ofFloat_shownValue hx hnear
      obtain rfl : m = m' := gridPoint_injective (hm.trans hm'.symm)
      rw [hread, ofFloat_inj (hy.trans hshown.symm)]
    · rw [stepText_of_not_nearWhole hx hnear, shownValue_of_not_nearWhole hx hnear]
      exact readDouble_plainText x
  · rw [stepText_of_not_isFinite hfinite, shownValue_of_not_isFinite hfinite]
    exact readDouble_plainText x

/-- The number that is shown has the same text. -/
theorem stepText_shownValue (x : Float) : stepText (shownValue x) = stepText x := by
  by_cases hfinite : IsFinite x
  · obtain ⟨negative, n, hx⟩ := exists_ofFloat hfinite
    by_cases hnear : NearWhole n
    · obtain ⟨y, m, hread, htext, -, -⟩ := stepText_nearWhole hx hnear
      rw [readDouble_stepText, Option.some.injEq] at hread
      rw [hread, htext]
    · rw [shownValue_of_not_nearWhole hx hnear]
  · rw [shownValue_of_not_isFinite hfinite]

/-- A number is shown as it is unless it is near a whole one that it is not, or is the zero with a
sign. -/
theorem shownValue_eq_self_iff (hx : IsFinite x) :
    shownValue x = x ↔ IsWhole x ∧ x ≠ -0 ∨ FarFromWhole x := by
  obtain ⟨negative, n, hfloat⟩ := exists_ofFloat hx
  constructor
  · intro heq
    by_cases hnear : NearWhole n
    · obtain ⟨m, hshown, hm⟩ := ofFloat_shownValue hfloat hnear
      rw [heq] at hshown
      refine .inl ⟨isWhole_of_gridPoint hshown hm, ?_⟩
      intro hzero
      have hindex : ofFloat x = .finite true 0 := hzero ▸ ofFloat_neg ofFloat_zero
      obtain ⟨rfl, rfl⟩ := Binary64.finite.inj (hfloat.symm.trans hindex)
      have hwhole : nearestWhole 0 = 0 :=
        nearestWhole_of_gridPoint (by rw [gridPoint_zero, Nat.zero_mul])
      have hsign := (Binary64.finite.inj (hindex.symm.trans hshown)).1
      simp [hwhole] at hsign
    · exact .inr ((farFromWhole_iff hfloat).mpr hnear)
  · rintro (⟨hwhole, hne⟩ | hfar)
    · have hshown : IsShown x := ⟨hx, .inl hwhole⟩
      obtain ⟨y, hread, -, heq⟩ := hshown.exists_readDouble
      rw [readDouble_stepText, Option.some.injEq] at hread
      rw [hread, ← heq hne]
    · exact shownValue_of_not_nearWhole hfloat ((farFromWhole_iff hfloat).mp hfar)

end Numbers

/-! ### Tokens -/

section Tokens

variable {t u : Token} {text : String} {x : Float}

theorem space_not_mem_of_readDouble (h : readDouble text = some x) : ' ' ∉ text.toList := by
  unfold readDouble at h
  split at h
  · decide
  · decide
  · decide
  · decide
  · obtain ⟨l, hl, -⟩ := Option.map_eq_some_iff.mp h
    intro hspace
    have hchar := Literal.mem_of_parse? hl hspace
    simp at hchar

theorem readDouble_symbol (op : Operator) : readDouble op.symbol = none := by
  rcases op with _ | (_ | _ | _ | _ | _) <;> rfl

/-- The text of no number is the symbol of an operator. -/
theorem stepText_ne_symbol (x : Float) (op : Operator) : stepText x ≠ op.symbol := by
  intro h
  have hread := readDouble_stepText x
  rw [h, readDouble_symbol] at hread
  cases hread

theorem symbol_injective {op op' : Operator} (h : op.symbol = op'.symbol) : op = op' := by
  have hop := Operator.ofSymbol?_symbol op
  rw [h, Operator.ofSymbol?_symbol, Option.some.injEq] at hop
  exact hop.symm

namespace Token

theorem space_not_mem_text (t : Token) : ' ' ∉ t.text.toList := by
  cases t with
  | number v => exact space_not_mem_of_readDouble (readDouble_stepText v)
  | operator op => rcases op with _ | (_ | _ | _ | _ | _) <;> decide

theorem isPiece_text (t : Token) : t.IsPiece t.text := by
  cases t with
  | number v =>
    refine ⟨fun op => iff_of_false (stepText_ne_symbol v op) nofun, ?_⟩
    intro w hw
    cases hw
    exact readDouble_stepText v
  | operator op =>
    refine ⟨fun op' => ⟨fun h => ?_, ?_⟩, nofun⟩
    · rw [symbol_injective h]
    · intro h
      rw [Token.operator.inj h]
      rfl

theorem text_eq_iff : t.text = u.text ↔ t.Alike u := by
  constructor
  · intro h
    cases t with
    | number v =>
      cases u with
      | number w => exact .number h
      | operator op => exact absurd h (stepText_ne_symbol v op)
    | operator op =>
      cases u with
      | number w => exact absurd h.symm (stepText_ne_symbol w op)
      | operator op' =>
        rw [symbol_injective h]
        exact .operator op'
  · rintro (h | _)
    · exact h
    · rfl

theorem ofText?_text (t : Token) : ofText? t.text = some t.shown := by
  cases t with
  | number v =>
    have hsymbol : Operator.ofSymbol? (stepText v) = none := by
      rw [Operator.ofSymbol?, List.find?_eq_none]
      intro op _
      simpa using (stepText_ne_symbol v op).symm
    show ofText? (stepText v) = _
    rw [ofText?, hsymbol, readDouble_stepText]
    rfl
  | operator op =>
    show ofText? op.symbol = _
    rw [ofText?, Operator.ofSymbol?_symbol]
    rfl

theorem shown_eq_self_iff : t.shown = t ↔ t.IsExact := by
  cases t with
  | operator op => exact iff_of_true rfl (.operator op)
  | number v =>
    rw [shown, Token.number.injEq]
    by_cases hfinite : IsFinite v
    · rw [shownValue_eq_self_iff hfinite]
      constructor
      · rintro (⟨hwhole, hne⟩ | hfar)
        · exact .whole hfinite hwhole hne
        · exact .far hfinite hfar
      · intro h
        cases h with
        | notANumber => exact absurd hfinite (by decide)
        | infinite h => rcases h with rfl | rfl <;> exact absurd hfinite (by decide)
        | whole _ hwhole hne => exact .inl ⟨hwhole, hne⟩
        | far _ hfar => exact .inr hfar
    · refine iff_of_true (shownValue_of_not_isFinite hfinite) ?_
      rcases eq_of_not_isFinite hfinite with rfl | h
      · exact .notANumber
      · exact .infinite h

end Token

end Tokens

/-! ### Lines -/

section Lines

variable {tokens others : List Token}

/-- A line that is not empty falls into the texts of its tokens. -/
theorem pieces_readable (hne : tokens ≠ []) : pieces (readable tokens) = tokens.map Token.text := by
  have hspaces : ∀ l ∈ (tokens.map Token.text).map String.toList, ' ' ∉ l := by
    intro l hl
    simp only [List.map_map, List.mem_map, Function.comp_apply] at hl
    obtain ⟨t, -, rfl⟩ := hl
    exact t.space_not_mem_text
  have hsplit := List.splitOn_intercalate ' ' hspaces (by simpa using hne)
  rw [pieces, readable, String.toList_intercalate]
  show ((List.intercalate [' '] _).splitOn ' ').map _ = _
  rw [hsplit, List.map_map]
  simp

theorem readTokens?_readable (hne : tokens ≠ []) :
    readTokens? (readable tokens) = some (tokens.map Token.shown) := by
  have hread (ts : List Token) :
      (ts.map Token.text).mapM Token.ofText? = some (ts.map Token.shown) := by
    induction ts with
    | nil => rfl
    | cons t ts ih =>
      rw [List.map_cons, List.mapM_cons, Token.ofText?_text, ih]
      rfl
  rw [readTokens?, pieces_readable hne, hread]

/-- What is read from a line is shown as the same line again. -/
theorem readable_map_shown (tokens : List Token) :
    readable (tokens.map Token.shown) = readable tokens := by
  have htext (t : Token) : t.shown.text = t.text := by
    cases t with
    | number v => exact stepText_shownValue v
    | operator op => rfl
  rw [readable, List.map_map, readable]
  exact congrArg _ (List.map_congr_left fun t _ => htext t)

theorem map_text_eq_iff :
    others.map Token.text = tokens.map Token.text ↔ List.Forall₂ Token.Alike others tokens := by
  rw [← List.forall₂_eq_eq_eq, List.forall₂_map_left_iff, List.forall₂_map_right_iff]
  exact ⟨fun h => h.imp fun _ _ => Token.text_eq_iff.mp,
    fun h => h.imp fun _ _ => Token.text_eq_iff.mpr⟩

theorem readable_eq_iff (hne : tokens ≠ []) :
    readable others = readable tokens ↔ List.Forall₂ Token.Alike others tokens := by
  rw [← map_text_eq_iff]
  constructor
  · intro h
    have hothers : others ≠ [] := by
      rintro rfl
      exact readable_ne_empty hne h.symm
    rw [← pieces_readable hothers, h, pieces_readable hne]
  · intro h
    rw [readable, h, readable]

/-- A line of tokens falls, at its spaces, into a piece for each token, in their order. A piece is
the symbol of an operator exactly where its token is this operator, and is else read as the number
that is shown. So the lines of two lists are the same exactly where the lists have the same
operators and numbers with the same text at the same places. What is read from the line are the
tokens that are shown, and these are the tokens of the line exactly where every number is no number
at all, an infinity, a whole number but the zero with a sign, or not near a whole number. -/
theorem readable_readsBack (hne : tokens ≠ []) :
    List.Forall₂ Token.IsPiece tokens (pieces (readable tokens)) ∧
    (∀ others, readable others = readable tokens ↔ List.Forall₂ Token.Alike others tokens) ∧
    readTokens? (readable tokens) = some (tokens.map Token.shown) ∧
    (readTokens? (readable tokens) = some tokens ↔ ∀ t ∈ tokens, t.IsExact) := by
  refine ⟨?_, fun others => readable_eq_iff hne, readTokens?_readable hne, ?_⟩
  · rw [pieces_readable hne, List.forall₂_map_right_iff, List.forall₂_same]
    intro t _
    exact t.isPiece_text
  · rw [readTokens?_readable hne, Option.some.injEq]
    simp only [← Token.shown_eq_self_iff]
    have hmap := List.map_inj_left (l := tokens) (f := Token.shown) (g := id)
    rwa [List.map_id] at hmap

/-- A number with a sign beside the operators that are close to it in their texts. -/
theorem readable_readsBack_signed :
    readable [.number (-2.5), .operator .neg, .number notANumber, .operator (.binary .sub)] =
        "-2.5 neg NaN -" ∧
      readTokens? "-2.5 neg NaN -" =
        some [.number (-2.5), .operator .neg, .number notANumber, .operator (.binary .sub)] := by
  have hline : readable
      [.number (-2.5), .operator .neg, .number notANumber, .operator (.binary .sub)] =
        "-2.5 neg NaN -" := by decide +kernel
  have hindex : ofFloat (-2.5) = .finite true 0x4004000000000000 := rfl
  have hfar : FarFromWhole (-2.5) := (farFromWhole_iff hindex).mpr (by decide +kernel)
  have hfinite : IsFinite (-2.5) := isFinite_of_ofFloat hindex
  have hne :
      [Token.number (-2.5), .operator .neg, .number notANumber, .operator (.binary .sub)] ≠ [] :=
    List.cons_ne_nil _ _
  obtain ⟨-, -, -, hexact⟩ := readable_readsBack hne
  refine ⟨hline, hline ▸ hexact.mpr ?_⟩
  simp only [List.forall_mem_cons, List.not_mem_nil, false_imp_iff, implies_true, and_true]
  exact ⟨.far hfinite hfar, .operator _, .notANumber, .operator _⟩

end Lines

end Reckoner
