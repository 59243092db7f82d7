import Mathlib.Data.List.Induction
import Reckoner.Proofs.Conservation

/-!
# The leftmost fault of a text

`FaultAt` says what can be at fault in a text that is to be converted, and at which place: a foreign
character, a point that is a whole run, a closing parenthesis that no opening one stands before. It
looks at the characters and the runs, and knows nothing of what the conversion holds back.
`toRpn_outcome` says that the leftmost of these faults is the one reported, that without one only a
group that is never closed is a fault, and that all other texts are converted, wherever their
operators stand.

The invariant is that the conversion holds as many opening parentheses as groups are open
(`openings`): with it, reading a lexeme either meets a fault at its front or moves all faults of the
text to the rest of it (`StepOutcome`).
-/

namespace Reckoner

/-- The characters that expressions are written with. -/
def isExpressionChar (c : Char) : Bool :=
  Numeral.isStart c || c = '(' || c = ')' || isOperatorChar c

/-- `FaultAt depth cs i fault`: in the text `cs`, which stands in `depth` open groups, the fault
starts after the first `i` characters. -/
inductive FaultAt (depth : Nat) (cs : List Char) : Nat → Fault → Prop where
  | foreign {before after : List Char} {c : Char} (split : cs = before ++ c :: after)
      (hc : isExpressionChar c = false) : FaultAt depth cs before.length (.invalidCharacter c)
  | point {ls ls' : List Lexeme} (split : lexemes cs = ls ++ .number ['.'] :: ls') :
      FaultAt depth cs (ls.flatMap Lexeme.chars).length (.badNumber ".")
  | closing {before after : List Char} (split : cs = before ++ ')' :: after)
      (excess : depth + before.count '(' ≤ before.count ')') :
      FaultAt depth cs before.length (.unmatched .closing)

/-- An opening parenthesis behind which at no place all groups that opened since are closed and one
more. -/
def NeverClosed (cs : List Char) : Prop :=
  ∃ before after, cs = before ++ '(' :: after ∧
    ∀ inside, inside <+: after → inside.count ')' ≤ inside.count '('

/-- What a text has to keep to be converted. Where the operators stand is not looked at. -/
structure Convertible (cs : List Char) : Prop where
  chars : ∀ c ∈ cs, isExpressionChar c = true
  /-- No run of digits and points is a lone point. -/
  runs : ['.'] ∉ numerals cs
  opened : ∀ before, before <+: cs → before.count ')' ≤ before.count '('
  closed : cs.count '(' = cs.count ')'

/-! ### Parentheses, counted -/

section Parentheses

variable {cs : List Char}

theorem count_concat_of_ne {c d : Char} (h : c ≠ d) (cs : List Char) :
    (cs ++ [c]).count d = cs.count d := by
  rw [List.count_append, List.count_singleton, if_neg (by simpa using h), Nat.add_zero]

/-- Where more groups are closed than opened, one closing parenthesis is the first too many. -/
theorem exists_excess (h : cs.count '(' < cs.count ')') :
    ∃ before after, cs = before ++ ')' :: after ∧ before.count '(' ≤ before.count ')' := by
  induction cs using List.reverseRecOn with
  | nil => exact absurd h (by simp)
  | append_singleton cs c ih =>
    by_cases hcs : cs.count '(' < cs.count ')'
    · obtain ⟨before, after, rfl, hbefore⟩ := ih hcs
      exact ⟨before, after ++ [c], by simp, hbefore⟩
    · by_cases hc : c = ')'
      · subst hc
        rw [count_concat_of_ne (by decide), List.count_append, List.count_singleton_self] at h
        exact ⟨cs, [], rfl, by omega⟩
      · rw [count_concat_of_ne hc, List.count_append] at h
        omega

/-- Where more groups are opened than closed, one of them is never closed: the last one that is
opened where as many are closed as opened, or more. -/
theorem neverClosed_of_count_lt (h : cs.count ')' < cs.count '(') : NeverClosed cs := by
  suffices ∃ before after, cs = before ++ '(' :: after ∧ before.count '(' ≤ before.count ')' ∧
      ∀ inside, inside <+: after → inside.count ')' ≤ inside.count '(' by
    obtain ⟨before, after, hcs, -, hafter⟩ := this
    exact ⟨before, after, hcs, hafter⟩
  induction cs using List.reverseRecOn with
  | nil => exact absurd h (by simp)
  | append_singleton cs c ih =>
    by_cases hcs : cs.count ')' < cs.count '('
    · obtain ⟨before, after, rfl, hbefore, hafter⟩ := ih hcs
      refine ⟨before, after ++ [c], by simp, hbefore, fun inside hinside => ?_⟩
      rcases List.prefix_concat_iff.mp hinside with rfl | hinside
      · rw [List.append_assoc, List.cons_append, List.count_append, List.count_append,
          List.count_cons_self, List.count_cons_of_ne (by decide)] at h
        omega
      · exact hafter inside hinside
    · by_cases hc : c = '('
      · subst hc
        refine ⟨cs, [], rfl, by omega, fun inside hinside => ?_⟩
        rw [List.prefix_nil.mp hinside]
        exact Nat.le_refl _
      · rw [count_concat_of_ne hc, List.count_append] at h
        omega

theorem count_lt_of_neverClosed (h : NeverClosed cs)
    (hopened : ∀ before, before <+: cs → before.count ')' ≤ before.count '(') :
    cs.count ')' < cs.count '(' := by
  obtain ⟨before, after, rfl, hafter⟩ := h
  have hbefore := hopened before (List.prefix_append before _)
  have hall := hafter after List.prefix_rfl
  simp only [List.count_append, List.count_cons_self]
  rw [List.count_cons_of_ne (by decide)]
  omega

end Parentheses

/-! ### Faults of a text and of its rest -/

/-- A place in a text is in its front part or in the rest. -/
theorem split_cases {front rest before after : List Char} {c : Char}
    (h : front ++ rest = before ++ c :: after) :
    (∃ inside, front = before ++ c :: inside) ∨
      ∃ before', before = front ++ before' ∧ rest = before' ++ c :: after := by
  rcases List.append_eq_append_iff.mp h with ⟨before', rfl, hrest⟩ | ⟨inside, rfl, hafter⟩
  · exact .inr ⟨before', rfl, hrest⟩
  · cases inside with
    | nil => exact .inr ⟨[], by simp, by simpa using hafter.symm⟩
    | cons d inside =>
      obtain ⟨rfl, -⟩ := List.cons.inj hafter
      exact .inl ⟨inside, rfl⟩

/-- A lexeme in which no fault starts moves all faults of a text to the rest of it. -/
theorem faultAt_append_iff {depth depth' : Nat} {l : Lexeme} {rest : List Char} {i : Nat}
    {fault : Fault} (hlex : lexemes (l.chars ++ rest) = l :: lexemes rest)
    (hpoint : l ≠ .number ['.']) (hchars : ∀ c ∈ l.chars, isExpressionChar c = true)
    (hclosing : ∀ before after, l.chars = before ++ ')' :: after →
      before.count ')' < depth + before.count '(')
    (hdepth : depth' + l.chars.count ')' = depth + l.chars.count '(') :
    FaultAt depth (l.chars ++ rest) i fault ↔
      ∃ j, i = l.chars.length + j ∧ FaultAt depth' rest j fault := by
  constructor
  · intro h
    cases h with
    | @foreign before after c split hc =>
      rcases split_cases split with ⟨inside, hl⟩ | ⟨before', rfl, hrest⟩
      · have hmem : c ∈ l.chars := by simp [hl]
        exact absurd (hchars c hmem) (by simp [hc])
      · exact ⟨before'.length, List.length_append, .foreign hrest hc⟩
    | @point ls ls' split =>
      rw [hlex] at split
      cases ls with
      | nil => exact absurd (List.cons.inj split).1 hpoint
      | cons l' ls =>
        obtain ⟨rfl, hrest⟩ := List.cons.inj split
        exact ⟨_, by rw [List.flatMap_cons, List.length_append], .point hrest⟩
    | @closing before after split excess =>
      rcases split_cases split with ⟨inside, hl⟩ | ⟨before', rfl, hrest⟩
      · exact absurd (hclosing before inside hl) (Nat.not_lt.mpr excess)
      · refine ⟨before'.length, List.length_append, .closing hrest ?_⟩
        rw [List.count_append, List.count_append] at excess
        omega
  · rintro ⟨j, rfl, h⟩
    cases h with
    | @foreign before after c split hc =>
      have hfault : FaultAt depth (l.chars ++ rest) (l.chars ++ before).length
          (.invalidCharacter c) := .foreign (by rw [split, List.append_assoc]) hc
      rwa [List.length_append] at hfault
    | @point ls ls' split =>
      have hfault : FaultAt depth (l.chars ++ rest) ((l :: ls).flatMap Lexeme.chars).length
          (.badNumber ".") := .point (by rw [hlex, split]; rfl)
      rwa [List.flatMap_cons, List.length_append] at hfault
    | @closing before after split excess =>
      have hfault : FaultAt depth (l.chars ++ rest) (l.chars ++ before).length
          (.unmatched .closing) := by
        refine .closing (by rw [split, List.append_assoc]) ?_
        rw [List.count_append, List.count_append]
        omega
      rwa [List.length_append] at hfault

/-! ### Reading a lexeme -/

section Steps

open Conversion

/-- At the end of a group, or of the text, all operators that are held come out, down to the last
opening parenthesis. -/
theorem release_all_cases (held : List Held) :
    (∃ out, release (fun _ => true) held = (out, []) ∧ openings held = 0) ∨
      ∃ out below, release (fun _ => true) held = (out, .opening :: below) ∧
        openings held = openings below + 1 := by
  obtain ⟨released, rest, -, hrelease, -, hrest⟩ := exists_release (fun _ => true) held
  have hopenings := openings_release (fun _ => true) held
  rw [hrelease] at hopenings
  match rest with
  | [] => exact .inl ⟨_, hrelease, hopenings.symm⟩
  | .opening :: below => exact .inr ⟨_, below, hrelease, hopenings.symm⟩
  | .operator op :: below => cases hrest op rfl

/-- A run without a value is a lone point. -/
theorem eq_point_of_value {run : List Char} {fault : Fault} (hne : run ≠ [])
    (h : Numeral.value run = .error fault) : run = ['.'] ∧ fault = .badNumber "." := by
  have hnone : Numeral.whole run ++ Numeral.fraction run = [] := by
    by_contra hsome
    obtain ⟨v, hv⟩ := Numeral.exists_value_iff.mpr hsome
    rw [hv] at h
    cases h
  obtain ⟨hwhole, hfraction⟩ := List.append_eq_nil_iff.mp hnone
  have hrun : run = ['.'] := by
    rcases Numeral.eq_whole_or_append run with ⟨heq, -⟩ | heq
    · exact absurd (heq.trans hwhole) hne
    · rw [heq, hwhole, hfraction]
      rfl
  subst hrun
  have hvalue : Numeral.value ['.'] = .error (.badNumber ".") := rfl
  rw [hvalue] at h
  cases h
  exact ⟨rfl, rfl⟩

theorem isExpressionChar_of_mem_run {run : List Char} (hrun : ∀ c ∈ run, c.isDigit ∨ c = '.')
    {c : Char} (hc : c ∈ run) : isExpressionChar c = true := by
  rcases hrun c hc with hd | rfl
  · simp [isExpressionChar, Numeral.isStart, hd]
  · rfl

theorem not_paren_of_mem_run {run : List Char} (hrun : ∀ c ∈ run, c.isDigit ∨ c = '.')
    {c : Char} (hc : c ∈ run) : c ≠ '(' ∧ c ≠ ')' := by
  rcases hrun c hc with hd | rfl
  · exact ⟨ne_of_isDigit hd rfl, ne_of_isDigit hd rfl⟩
  · exact ⟨by decide, by decide⟩

/-- What reading the first lexeme of a text does to its faults: it meets the one that starts there,
or all of them start in the rest, where the groups are open that are held open after the lexeme. -/
def StepOutcome (c : Conversion) (l : Lexeme) (rest : List Char) : Prop :=
  (∃ fault, step c l = .error fault ∧ FaultAt (openings c.held) (l.chars ++ rest) 0 fault) ∨
    ∃ out next, step c l = .ok (out, next) ∧
      openings next.held + l.chars.count ')' = openings c.held + l.chars.count '(' ∧
      ∀ i fault, FaultAt (openings c.held) (l.chars ++ rest) i fault ↔
        ∃ j, i = l.chars.length + j ∧ FaultAt (openings next.held) rest j fault

theorem stepOutcome_number {run rest : List Char} (c : Conversion)
    (hrun : ∀ c ∈ run, c.isDigit ∨ c = '.') (hne : run ≠ [])
    (hlex : lexemes (run ++ rest) = .number run :: lexemes rest) :
    StepOutcome c (.number run) rest := by
  obtain ⟨held, signPlace⟩ := c
  rcases hvalue : Numeral.value run with fault | v
  · obtain ⟨rfl, rfl⟩ := eq_point_of_value hne hvalue
    refine .inl ⟨.badNumber ".", by rw [step, hvalue]; rfl, ?_⟩
    exact @FaultAt.point _ _ [] _ hlex
  · have hparen {c : Char} (hc : c = '(' ∨ c = ')') : run.count c = 0 := by
      refine List.count_eq_zero.mpr fun hmem => ?_
      obtain ⟨hopening, hclosing⟩ := not_paren_of_mem_run hrun hmem
      rcases hc with hc | hc
      · exact hopening hc
      · exact hclosing hc
    have hdepth : openings held + run.count ')' = openings held + run.count '(' := by
      rw [hparen (.inl rfl), hparen (.inr rfl)]
    refine .inr ⟨[.number v], ⟨held, false⟩, by rw [step, hvalue]; rfl, hdepth, fun i fault => ?_⟩
    refine faultAt_append_iff hlex ?_ (fun c hc => isExpressionChar_of_mem_run hrun hc)
      (fun before after hsplit => ?_) hdepth
    · intro hpoint
      obtain rfl := Lexeme.number.inj hpoint
      cases hvalue
    · have hmem : ')' ∈ run := by simp [show run = _ from hsplit]
      exact absurd rfl (not_paren_of_mem_run hrun hmem).2

theorem eq_nil_of_singleton_split {d e : Char} {before after : List Char}
    (h : [d] = before ++ e :: after) : before = [] ∧ d = e := by
  cases before with
  | nil => exact ⟨rfl, (List.cons.inj h).1⟩
  | cons b before => simp at h

theorem stepOutcome_ofChar {d : Char} {rest : List Char} (c : Conversion)
    (hd : Numeral.isStart d = false) : StepOutcome c (.ofChar d) rest := by
  obtain ⟨held, signPlace⟩ := c
  have hlex : lexemes ((Lexeme.ofChar d).chars ++ rest) = .ofChar d :: lexemes rest := by
    rw [Lexeme.chars_ofChar, List.singleton_append, lexemes_cons hd]
  have hchars : (Lexeme.ofChar d).chars = [d] := Lexeme.chars_ofChar d
  -- a character that is at no fault has only to keep the count of the open groups
  have hmoves (next : Conversion) (out : List Token)
      (hstep : step ⟨held, signPlace⟩ (.ofChar d) = .ok (out, next))
      (hchar : isExpressionChar d = true) (hclosing : d = ')' → 0 < openings held)
      (hdepth : openings next.held + (Lexeme.ofChar d).chars.count ')' =
        openings held + (Lexeme.ofChar d).chars.count '(') :
      StepOutcome ⟨held, signPlace⟩ (.ofChar d) rest := by
    refine .inr ⟨out, next, hstep, hdepth, fun i fault => ?_⟩
    refine faultAt_append_iff hlex (ofChar_ne_number d _) (fun e he => ?_)
      (fun before after hsplit => ?_) hdepth
    · rw [hchars] at he
      rwa [List.mem_singleton.mp he]
    · rw [hchars] at hsplit
      obtain ⟨rfl, hd⟩ := eq_nil_of_singleton_split hsplit
      exact hclosing hd
  by_cases hopening : d = '('
  · subst hopening
    exact hmoves ⟨.opening :: held, true⟩ [] rfl rfl nofun rfl
  by_cases hclosing : d = ')'
  · subst hclosing
    rcases release_all_cases held with
      ⟨out, hrelease, hopenings⟩ | ⟨out, below, hrelease, hopenings⟩
    · refine .inl ⟨.unmatched .closing, ?_, @FaultAt.closing _ _ [] _ rfl ?_⟩
      · show step ⟨held, signPlace⟩ .closing = _
        rw [step, hrelease]
      · exact Nat.le_of_eq hopenings
    · refine hmoves ⟨below, false⟩ out ?_ rfl (fun _ => by omega) hopenings.symm
      show step ⟨held, signPlace⟩ .closing = _
      rw [step, hrelease]
  cases hop : BinaryOp.ofChar? d with
  | some op =>
    obtain rfl := BinaryOp.ofChar?_eq_some_iff.mp hop
    have hchar : isExpressionChar op.symbol = true := by cases op <;> rfl
    have hheld := openings_release (role signPlace op).yieldsTo held
    have hparens : op.symbol ≠ '(' ∧ op.symbol ≠ ')' := ⟨hopening, hclosing⟩
    refine hmoves ⟨.operator (role signPlace op) :: (release _ held).2, true⟩ _
      (by rw [ofChar_symbol]; rfl) hchar (fun h => absurd h hclosing) ?_
    rw [hchars]
    simp [openings, hheld, hparens]
  | none =>
    have hforeign : Lexeme.ofChar d = .foreign d := by simp [Lexeme.ofChar, hopening, hclosing, hop]
    refine .inl ⟨.invalidCharacter d, by rw [hforeign]; rfl, ?_⟩
    rw [hchars]
    refine @FaultAt.foreign _ _ [] _ _ rfl ?_
    simp [isExpressionChar, isOperatorChar, hd, hopening, hclosing, hop]

/-! ### Reading a text -/

/-- What reading a text does: it meets the leftmost of its faults, or the text has none, and then
the groups that are open at its end are those that were opened and not closed. -/
def RunOutcome (c : Conversion) (cs : List Char) : Prop :=
  (∃ fault i, transduce step c (lexemes cs) = .error fault ∧ FaultAt (openings c.held) cs i fault ∧
    ∀ j fault', FaultAt (openings c.held) cs j fault' → i ≤ j) ∨
  ∃ out last, transduce step c (lexemes cs) = .ok (out, last) ∧
    openings last.held + cs.count ')' = openings c.held + cs.count '(' ∧
    ∀ i fault, ¬ FaultAt (openings c.held) cs i fault

theorem runOutcome_nil (c : Conversion) : RunOutcome c [] := by
  refine .inr ⟨[], c, by rw [lexemes]; rfl, rfl, fun i fault h => ?_⟩
  cases h with
  | foreign split hc => simp at split
  | point split => simp [lexemes] at split
  | closing split excess => simp at split

theorem RunOutcome.cons {c : Conversion} {l : Lexeme} {rest : List Char}
    (hlex : lexemes (l.chars ++ rest) = l :: lexemes rest) (hstep : StepOutcome c l rest)
    (hrest : ∀ next : Conversion, RunOutcome next rest) : RunOutcome c (l.chars ++ rest) := by
  rcases hstep with ⟨fault, herror, hfault⟩ | ⟨out, next, hok, hdepth, hmoves⟩
  · refine .inl ⟨fault, 0, ?_, hfault, fun j _ _ => Nat.zero_le j⟩
    rw [hlex, transduce_cons_of_error herror]
  rcases hrest next with ⟨fault, i, herror, hfault, hleast⟩ | ⟨out', last, hrun, hcount, hnone⟩
  · refine .inl ⟨fault, l.chars.length + i, ?_, (hmoves _ _).mpr ⟨i, rfl, hfault⟩, ?_⟩
    · rw [hlex, transduce_cons_of_ok hok, herror]
      rfl
    · intro j fault' hj
      obtain ⟨j', rfl, hj'⟩ := (hmoves j fault').mp hj
      exact Nat.add_le_add_left (hleast j' fault' hj') _
  · refine .inr ⟨out ++ out', last, ?_, ?_, fun i fault h => ?_⟩
    · rw [hlex, transduce_cons_of_ok hok, hrun]
      rfl
    · rw [List.count_append, List.count_append]
      omega
    · obtain ⟨j, -, hj⟩ := (hmoves i fault).mp h
      exact hnone j fault hj

theorem runOutcome (c : Conversion) (cs : List Char) : RunOutcome c cs := by
  fun_induction lexemes cs generalizing c with
  | case1 => exact runOutcome_nil c
  | case2 d cs hd ih =>
    have happend := takeRun_append true (d :: cs)
    have hlex : lexemes ((takeRun true (d :: cs)).1 ++ (takeRun true (d :: cs)).2) =
        .number (takeRun true (d :: cs)).1 :: lexemes (takeRun true (d :: cs)).2 := by
      rw [happend, lexemes_cons_of_isStart hd]
    rw [← happend]
    exact .cons hlex (stepOutcome_number c (fun _ => mem_takeRun) (takeRun_ne_nil hd cs) hlex) ih
  | case3 d cs hd ih =>
    have hd : Numeral.isStart d = false := by simpa using hd
    have hchars : (Lexeme.ofChar d).chars = [d] := Lexeme.chars_ofChar d
    have hrun : RunOutcome c ((Lexeme.ofChar d).chars ++ cs) :=
      .cons (by rw [hchars, List.singleton_append, lexemes_cons hd]) (stepOutcome_ofChar c hd) ih
    rwa [hchars] at hrun

end Steps

/-! ### Whole texts -/

section Texts

open Conversion

variable {cs : List Char}

/-- The fault that can start with a character. -/
def faultOf (c : Char) : Fault :=
  if c = '.' then .badNumber "." else if c = ')' then .unmatched .closing else .invalidCharacter c

theorem FaultAt.exists_char {depth i : Nat} {fault : Fault} (h : FaultAt depth cs i fault) :
    ∃ c, cs[i]? = some c ∧ fault = faultOf c := by
  cases h with
  | @foreign before after c split hc =>
    refine ⟨c, by simp [split], ?_⟩
    have hpoint : c ≠ '.' := by
      rintro rfl
      cases hc
    have hclosing : c ≠ ')' := by
      rintro rfl
      cases hc
    rw [faultOf, if_neg hpoint, if_neg hclosing]
  | @point ls ls' split =>
    have hcs : cs = ls.flatMap Lexeme.chars ++ '.' :: ls'.flatMap Lexeme.chars := by
      rw [← flatMap_chars_lexemes cs, split, List.flatMap_append]
      rfl
    exact ⟨'.', by simp [hcs], rfl⟩
  | closing split excess => exact ⟨')', by simp [split], rfl⟩

theorem FaultAt.eq_of_eq {depth i : Nat} {fault fault' : Fault} (h : FaultAt depth cs i fault)
    (h' : FaultAt depth cs i fault') : fault = fault' := by
  obtain ⟨c, hc, rfl⟩ := h.exists_char
  obtain ⟨c', hc', rfl⟩ := h'.exists_char
  rw [hc] at hc'
  cases hc'
  rfl

theorem convertible_iff :
    Convertible cs ↔ (∀ i fault, ¬ FaultAt 0 cs i fault) ∧ cs.count '(' = cs.count ')' := by
  constructor
  · rintro ⟨hchars, hruns, hopened, hclosed⟩
    refine ⟨fun i fault h => ?_, hclosed⟩
    cases h with
    | @foreign before after c split hc =>
      have hmem : c ∈ cs := by simp [split]
      exact absurd (hchars c hmem) (by simp [hc])
    | @point ls ls' split =>
      refine hruns (List.mem_filterMap.mpr ⟨.number ['.'], ?_, rfl⟩)
      simp [split]
    | @closing before after split excess =>
      have hprefix : before ++ [')'] <+: cs := ⟨after, by simp [split]⟩
      have hcount := hopened _ hprefix
      rw [count_concat_of_ne (d := '(') (by decide), List.count_append,
        List.count_singleton_self] at hcount
      omega
  · rintro ⟨hnone, hclosed⟩
    refine ⟨fun c hc => ?_, fun hpoint => ?_, fun before hbefore => ?_, hclosed⟩
    · by_contra hforeign
      obtain ⟨before, after, hsplit⟩ := List.append_of_mem hc
      exact hnone _ _ (.foreign hsplit (by simpa using hforeign))
    · obtain ⟨l, hl, hpoint⟩ := List.mem_filterMap.mp hpoint
      obtain ⟨ls, ls', hsplit⟩ := List.append_of_mem hl
      cases l with
      | number run =>
        cases hpoint
        exact hnone _ _ (.point hsplit)
      | _ => cases hpoint
    · by_contra hexcess
      obtain ⟨rest, rfl⟩ := hbefore
      obtain ⟨before', after, rfl, hcount⟩ := exists_excess (Nat.lt_of_not_le hexcess)
      refine hnone _ _ (@FaultAt.closing _ _ before' (after ++ rest) (by simp) ?_)
      rwa [Nat.zero_add]

/-- The three ends of a conversion: at the leftmost fault, with the tokens, or with a group left
open. -/
theorem toRpn_cases (cs : List Char) :
    (∃ fault i, toRpn cs = .error fault ∧ FaultAt 0 cs i fault ∧
      ∀ j fault', FaultAt 0 cs j fault' → i ≤ j) ∨
    (∃ out, toRpn cs = .ok out ∧ cs.count '(' = cs.count ')' ∧
      ∀ i fault, ¬ FaultAt 0 cs i fault) ∨
    (toRpn cs = .error (.unmatched .opening) ∧ cs.count ')' < cs.count '(' ∧
      ∀ i fault, ¬ FaultAt 0 cs i fault) := by
  have hstart : openings Conversion.start.held = 0 := rfl
  rcases runOutcome .start cs with
    ⟨fault, i, hrun, hfault, hleast⟩ | ⟨out, last, hrun, hcount, hnone⟩
  · refine .inl ⟨fault, i, ?_, hfault, hleast⟩
    rw [toRpn, hrun]
    rfl
  have htoRpn : toRpn cs = finish last.held >>= fun rest => .ok (out ++ rest) := by
    rw [toRpn, hrun]
    rfl
  rw [hstart] at hcount hnone
  rcases release_all_cases last.held with
    ⟨rest, hrelease, hopenings⟩ | ⟨rest, below, hrelease, hopenings⟩
  · refine .inr (.inl ⟨out ++ rest, ?_, by omega, hnone⟩)
    rw [htoRpn, finish, hrelease]
    rfl
  · refine .inr (.inr ⟨?_, by omega, hnone⟩)
    rw [htoRpn, finish, hrelease]
    rfl

/-- A text is converted if and only if it keeps to the characters of expressions, has no lone point
for a number, and closes all groups that it opens and no others. Otherwise the fault reported is the
leftmost one, or, where there is none, an opening parenthesis that is never closed. -/
theorem toRpn_outcome (cs : List Char) :
    ((∃ out, toRpn cs = .ok out) ↔ Convertible cs) ∧
      ∀ fault, toRpn cs = .error fault ↔
        (∃ i, FaultAt 0 cs i fault ∧ ∀ j fault', FaultAt 0 cs j fault' → i ≤ j) ∨
          fault = .unmatched .opening ∧ (∀ i fault', ¬ FaultAt 0 cs i fault') ∧
            NeverClosed cs := by
  rcases toRpn_cases cs with
    ⟨fault₀, i₀, herror, hfault, hleast⟩ | ⟨out, hok, hclosed, hnone⟩ | ⟨herror, hopen, hnone⟩
  · rw [herror]
    refine ⟨iff_of_false nofun fun h => (convertible_iff.mp h).1 i₀ fault₀ hfault,
      fun fault => ⟨?_, ?_⟩⟩
    · intro h
      cases h
      exact .inl ⟨i₀, hfault, hleast⟩
    · rintro (⟨i, hi, hi'⟩ | ⟨-, hnone, -⟩)
      · obtain rfl : i = i₀ := Nat.le_antisymm (hi' i₀ fault₀ hfault) (hleast i fault hi)
        rw [hfault.eq_of_eq hi]
      · exact absurd hfault (hnone i₀ fault₀)
  · have hconvertible : Convertible cs := convertible_iff.mpr ⟨hnone, hclosed⟩
    rw [hok]
    refine ⟨iff_of_true ⟨_, rfl⟩ hconvertible, fun fault => iff_of_false nofun ?_⟩
    rintro (⟨i, hi, -⟩ | ⟨-, -, hopen⟩)
    · exact hnone i fault hi
    · have hlt := count_lt_of_neverClosed hopen hconvertible.opened
      omega
  · rw [herror]
    refine ⟨iff_of_false nofun fun h => ?_, fun fault => ⟨?_, ?_⟩⟩
    · have hclosed := h.closed
      omega
    · intro h
      cases h
      exact .inr ⟨rfl, hnone, neverClosed_of_count_lt hopen⟩
    · rintro (⟨i, hi, -⟩ | ⟨rfl, -, -⟩)
      · exact absurd hi (hnone i fault)
      · rfl

example : toRpn "(1+*..)a)".toList = .error (.badNumber ".") := by decide +kernel

end Texts

end Reckoner
