import Reckoner.Proofs.Diagnosis

/-!
# Exponents on the left side

The left side of an equation is cut at every sign, and so within a literal whose exponent has one.
Any other literal has no sign but the one in front of it, and is one fragment of the left side
(`IsSign.exists_fragments`); a literal with a signed exponent is cut behind the letter, and what
stands in front of the cut is no literal (`not_isMagnitude_letter`). `ofText_literal` says of all
literals, alone and as a coefficient, what the left side makes of them.
-/

namespace Reckoner

open LinearForm Summand

section Signs

variable {cs ds sign body : List Char}

theorem Unsigned.append (hcs : Unsigned cs) (hds : Unsigned ds) : Unsigned (cs ++ ds) :=
  List.forall_mem_append.mpr ⟨hcs, hds⟩

theorem Unsigned.of_isDigit (h : ∀ c ∈ cs, c.isDigit) : Unsigned cs :=
  fun c hc => ⟨ne_of_isDigit (h c hc) rfl, ne_of_isDigit (h c hc) rfl⟩

theorem Unsigned.of_letter {letter : Char} (h : letter = 'e' ∨ letter = 'E') :
    Unsigned [letter] := by
  rcases h with rfl | rfl <;> exact .cons (by decide) (by decide) .nil

theorem Unsigned.of_isUnknown {x : Char} (hx : isUnknown x) : Unsigned [x] := by
  refine .cons ?_ ?_ .nil <;> rintro rfl <;> cases hx

theorem IsNumeral.unsigned (h : IsNumeral cs) : Unsigned cs := by
  intro c hc
  rcases h.chars c hc with hd | rfl
  · exact ⟨ne_of_isDigit hd rfl, ne_of_isDigit hd rfl⟩
  · decide

theorem readLiteral_plus (h : Literal.takeSign cs = (false, cs)) :
    readLiteral ('+' :: cs) = readLiteral cs := by
  have hsign : Literal.takeSign ('+' :: cs) = Literal.takeSign cs := by
    rw [h]
    rfl
  simp only [readLiteral, Literal.parse?, hsign]

/-- A sign in front of a text without signs makes no cut; a plus is lost, which changes no value. -/
theorem IsSign.exists_fragments (h : IsSign sign) :
    ∃ negative, ∀ body, Unsigned body → body ≠ [] →
      fragments (sign ++ body) = [withMinus negative body] ∧
        readLiteral (withMinus negative body) = readLiteral (sign ++ body) := by
  rcases h with rfl | rfl | rfl
  · refine ⟨false, fun body hbody hne => ⟨?_, rfl⟩⟩
    rw [← terms_eq_fragments]
    exact terms_of_unsigned hbody hne
  · refine ⟨false, fun body hbody hne => ⟨?_, ?_⟩⟩
    · rw [← terms_eq_fragments]
      exact (terms_append_plus [] body).trans (terms_of_unsigned hbody hne)
    · exact (readLiteral_plus (Literal.takeSign_of_unsigned hbody)).symm
  · refine ⟨true, fun body hbody hne => ⟨?_, rfl⟩⟩
    rw [← terms_eq_fragments]
    exact terms_minus_of_unsigned hbody

/-- There is a cut at every sign. -/
theorem exists_fragments_append {c : Char} (hc : c = '+' ∨ c = '-') (cs ds : List Char) :
    ∃ rest, fragments (cs ++ c :: ds) = fragments cs ++ rest := by
  simp only [← terms_eq_fragments]
  rcases hc with rfl | rfl
  · exact ⟨_, terms_append_plus cs ds⟩
  · exact ⟨_, terms_append_minus cs ds⟩

end Signs

section Literals

variable {cs run : List Char} {letter : Char}

/-- The signs of a literal are the one in front of it and the one of its exponent. -/
theorem IsLiteral.unsigned_or_signedExponent (h : IsLiteral cs) :
    (∃ sign body, IsSign sign ∧ Unsigned body ∧ body ≠ [] ∧ cs = sign ++ body) ∨
      ∃ sign run letter esign ds, IsSign sign ∧ IsNumeral run ∧ (letter = 'e' ∨ letter = 'E') ∧
        (esign = '+' ∨ esign = '-') ∧ cs = sign ++ (run ++ [letter]) ++ esign :: ds := by
  obtain ⟨hsign, ⟨numeral, hexponent⟩⟩ := h
  cases hexponent with
  | absent =>
    obtain ⟨d, hd, -⟩ := numeral.digit
    rw [List.append_nil]
    exact .inl ⟨_, _, hsign, numeral.unsigned, List.ne_nil_of_mem hd, rfl⟩
  | @present letter esign ds hletter hesign digits hne =>
    rcases hesign with rfl | rfl | rfl
    · have hexponent := (Unsigned.of_letter hletter).append (.of_isDigit digits)
      have hbody := numeral.unsigned.append hexponent
      exact .inl ⟨_, _, hsign, hbody, by simp, rfl⟩
    · exact .inr ⟨_, _, letter, '+', ds, hsign, numeral, hletter, .inl rfl, by simp⟩
    · exact .inr ⟨_, _, letter, '-', ds, hsign, numeral, hletter, .inr rfl, by simp⟩

/-- A text that ends with the letter of an exponent lacks the digits of the exponent. -/
theorem not_isMagnitude_letter (hletter : letter = 'e' ∨ letter = 'E') :
    ¬ IsMagnitude (cs ++ [letter]) := by
  have hdigit : letter.isDigit = false := by rcases hletter with rfl | rfl <;> rfl
  intro h
  generalize htext : cs ++ [letter] = text at h
  obtain ⟨numeral, hexponent⟩ := h
  cases hexponent with
  | absent =>
    rw [List.append_nil] at htext
    rcases numeral.chars letter (by simp [← htext]) with hd | rfl
    · simp [hdigit] at hd
    · simp at hletter
  | @present e esign ds _ _ digits hne =>
    obtain ⟨ds, d, rfl⟩ := (List.eq_nil_or_concat ds).resolve_left hne
    rw [List.concat_eq_append, ← List.append_assoc, ← List.append_assoc] at htext
    obtain rfl : letter = d := by simpa using List.append_inj_right' htext rfl
    simp [digits letter (by simp)] at hdigit

theorem kindOf_letter (numeral : IsNumeral run) (hletter : letter = 'e' ∨ letter = 'E')
    (negative : Bool) : kindOf (withMinus negative (run ++ [letter])) = .constant := by
  refine if_neg ?_
  rw [any_isUnknown_withMinus, Bool.not_eq_true, List.any_eq_false]
  intro c hc
  have hchar : c.isDigit ∨ c ∈ ['.', 'e', 'E', '+', '-'] := by
    rcases List.mem_append.mp hc with hc | hc
    · exact (numeral.chars c hc).imp_right fun h => by simp [h]
    · rw [List.mem_singleton.mp hc]
      rcases hletter with rfl | rfl <;> simp
  simp [LinearForm.isUnknown_eq_false hchar]

theorem not_isTerm_letter (numeral : IsNumeral run) (hletter : letter = 'e' ∨ letter = 'E')
    (negative : Bool) : ¬ IsTerm (withMinus negative (run ++ [letter])) := by
  intro hterm
  rw [IsTerm, kindOf_letter numeral hletter] at hterm
  obtain ⟨v, hv⟩ := exists_readLiteral_iff.mpr hterm
  have hbody := numeral.unsigned.append (Unsigned.of_letter hletter)
  obtain ⟨-, -, magnitude, -⟩ := readLiteral_withMinus_eq_some hbody hv
  exact not_isMagnitude_letter hletter magnitude

end Literals

section LeftSides

variable {cs sign body run : List Char} {x letter : Char} {v : Float}

theorem not_hasSignedExponent (hsign : IsSign sign) (hbody : Unsigned body) :
    ¬ HasSignedExponent (sign ++ body) := by
  rintro ⟨letter, hletter, esign, hesign, before, after, htext⟩
  have hmem : esign ∈ body := by
    have htail : esign ∈ (sign ++ body).tail := by
      rw [← htext]
      cases before <;> simp
    rcases hsign with rfl | rfl | rfl
    · exact List.mem_of_mem_tail htail
    · exact htail
    · exact htail
  obtain ⟨hplus, hminus⟩ := hbody esign hmem
  simp [hplus, hminus] at hesign

theorem hasSignedExponent (hletter : letter = 'e' ∨ letter = 'E') {esign : Char}
    (hesign : esign = '+' ∨ esign = '-') (before ds : List Char) :
    HasSignedExponent (before ++ [letter] ++ esign :: ds) :=
  ⟨letter, by simpa using hletter, esign, by simpa using hesign, before, ds, by simp⟩

theorem ofText_of_fragment {f : List Char} {form : LinearForm} (h : fragments cs = [f])
    (hadd : zero.addTerm f = .ok form) : ofText cs = .ok form := by
  rw [ofText, terms_eq_fragments, h, List.foldlM_cons, hadd]
  rfl

/-- Without a sign in its body, a literal is one fragment. -/
theorem ofText_unsigned (hsign : IsSign sign) (hbody : Unsigned body) (hne : body ≠ [])
    (hx : isUnknown x) (h : readLiteral (sign ++ body) = some v) :
    ofText (sign ++ body) = .ok ⟨0, 0 + v⟩ ∧ ofText (sign ++ body ++ [x]) = .ok ⟨0 + v, 0⟩ := by
  obtain ⟨negative, hfragments⟩ := hsign.exists_fragments
  obtain ⟨hcut, hreads⟩ := hfragments body hbody hne
  rw [h] at hreads
  obtain ⟨hcutx, -⟩ := hfragments (body ++ [x]) (hbody.append (.of_isUnknown hx)) (by simp)
  have hlast : withMinus negative (body ++ [x]) = withMinus negative body ++ [x] := by
    cases negative <;> rfl
  rw [hlast, ← List.append_assoc] at hcutx
  exact ⟨ofText_of_fragment hcut (addTerm_constant zero hreads),
    ofText_of_fragment hcutx (addTerm_unknown zero (fun c => isUnknown_of_readLiteral hreads) hx
      (coefficient?_of_readLiteral hreads))⟩

/-- What stands in front of the sign of an exponent is the leftmost fragment, and no literal,
whatever stands behind the sign. -/
theorem ofText_signedExponent (hsign : IsSign sign) (numeral : IsNumeral run)
    (hletter : letter = 'e' ∨ letter = 'E') {esign : Char} (hesign : esign = '+' ∨ esign = '-') :
    ∃ f, ∀ ds, (∃ rest, fragments (sign ++ (run ++ [letter]) ++ esign :: ds) = f :: rest) ∧
      ofText (sign ++ (run ++ [letter]) ++ esign :: ds) =
        .error (.badTerm (String.ofList f) .constant) := by
  obtain ⟨negative, hfragments⟩ := hsign.exists_fragments
  obtain ⟨hcut, -⟩ := hfragments (run ++ [letter])
    (numeral.unsigned.append (Unsigned.of_letter hletter)) (by simp)
  refine ⟨withMinus negative (run ++ [letter]), fun ds => ?_⟩
  obtain ⟨rest, hrest⟩ := exists_fragments_append hesign (sign ++ (run ++ [letter])) ds
  rw [hcut] at hrest
  refine ⟨⟨rest, hrest⟩, ?_⟩
  have hsplit : fragments (sign ++ (run ++ [letter]) ++ esign :: ds) =
      [] ++ withMinus negative (run ++ [letter]) :: rest := hrest
  have hfirst := ofText_of_first hsplit (by simp) (not_isTerm_letter numeral hletter negative)
  rwa [kindOf_letter numeral hletter] at hfirst

/-- Every literal is a term, alone and in front of the letter of the unknown. The left side reads
it as that term, and with the value it has as a right side, if and only if its exponent has no sign;
else the left side reports what stands in front of this sign. -/
theorem ofText_literal {t : List Char} (hx : isUnknown x) (h : readLiteral t = some v) :
    zero.addTerm t = .ok ⟨0, 0 + v⟩ ∧ zero.addTerm (t ++ [x]) = .ok ⟨0 + v, 0⟩ ∧
      (¬ HasSignedExponent t →
        ofText t = zero.addTerm t ∧ ofText (t ++ [x]) = zero.addTerm (t ++ [x])) ∧
      (HasSignedExponent t → ∃ f rest, fragments t = f :: rest ∧
        ofText t = .error (.badTerm (String.ofList f) .constant) ∧
        ofText (t ++ [x]) = .error (.badTerm (String.ofList f) .constant)) := by
  have hconstant : zero.addTerm t = .ok ⟨0, 0 + v⟩ := addTerm_constant zero h
  have hunknown : zero.addTerm (t ++ [x]) = .ok ⟨0 + v, 0⟩ :=
    addTerm_unknown zero (fun c => isUnknown_of_readLiteral h) hx (coefficient?_of_readLiteral h)
  refine ⟨hconstant, hunknown, ?_⟩
  rw [hconstant, hunknown]
  rcases (isLiteral_of_readLiteral h).unsigned_or_signedExponent with
    ⟨sign, body, hsign, hbody, hne, rfl⟩ |
    ⟨sign, run, letter, esign, ds, hsign, numeral, hletter, hesign, rfl⟩
  · exact ⟨fun _ => ofText_unsigned hsign hbody hne hx h,
      fun hexponent => absurd hexponent (not_hasSignedExponent hsign hbody)⟩
  · have hexponent : HasSignedExponent (sign ++ (run ++ [letter]) ++ esign :: ds) := by
      rw [← List.append_assoc]
      exact hasSignedExponent hletter hesign (sign ++ run) ds
    obtain ⟨f, hf⟩ := ofText_signedExponent hsign numeral hletter hesign
    obtain ⟨⟨rest, hrest⟩, herror⟩ := hf ds
    obtain ⟨-, herrorx⟩ := hf (ds ++ [x])
    refine ⟨fun hnot => absurd hexponent hnot, fun _ => ⟨f, rest, hrest, herror, ?_⟩⟩
    rwa [List.append_assoc, List.cons_append]

theorem ofText_literal_exponents :
    (readLiteral "-2.5e3".toList = some (-2500) ∧ isUnknown 'x' ∧
        ofText "-2.5e3".toList = .ok ⟨0, -2500⟩ ∧ ofText "-2.5e3x".toList = .ok ⟨-2500, 0⟩) ∧
      readLiteral "+1E-2".toList = some 0.01 ∧ HasSignedExponent "+1E-2".toList ∧
        ∃ f rest, fragments "+1E-2".toList = f :: rest ∧
          ofText "+1E-2".toList = .error (.badTerm (String.ofList f) .constant) ∧
          ofText "+1E-2x".toList = .error (.badTerm (String.ofList f) .constant) := by
  have hplain : readLiteral "-2.5e3".toList = some (-2500) := by decide +kernel
  have hsigned : readLiteral "+1E-2".toList = some 0.01 := by decide +kernel
  have hx : isUnknown 'x' := by decide
  have hexponent : HasSignedExponent "+1E-2".toList := by decide +kernel
  obtain ⟨hconstant, hunknown, hreads, -⟩ := ofText_literal hx hplain
  obtain ⟨halone, hcoefficient⟩ := hreads (by decide +kernel)
  have hzero : (0 : Float) + -2500 = -2500 := by decide +kernel
  refine ⟨⟨hplain, hx, ?_, ?_⟩, hsigned, hexponent, (ofText_literal hx hsigned).2.2.2 hexponent⟩
  · rw [halone, hconstant, hzero]
  · rw [hzero] at hunknown
    exact hcoefficient.trans hunknown

/-- The left side is cut within `1e+5`, which the right side reads. -/
theorem refused_signedExponent :
    readLiteral "1e+5".toList = some 100000 ∧
      zero.addTerm "1e+5".toList = .ok ⟨0, 100000⟩ ∧
      ofText "1e+5".toList = .error (.badTerm "1e" .constant) ∧
      zero.addTerm "1e+5x".toList = .ok ⟨100000, 0⟩ ∧
      ofText "1e+5x".toList = .error (.badTerm "1e" .constant) ∧
      solveEquation "x=1e+5" = .ok 100000 ∧
      solveEquation "1e+5x=1e+5" = .error (.badTerm "1e" .constant) := by
  decide +kernel

end LeftSides

end Reckoner
