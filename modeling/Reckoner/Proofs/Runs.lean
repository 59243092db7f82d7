import Reckoner.Proofs.Faults
import Reckoner.Proofs.Reading

/-!
# Runs of digits

A number is read from the longest beginning of a text that digits with at most one point make up
(`isLongestRun_takeRun`), and this is a number if and only if it has a digit (`numberOutcome_read`).
So a block of digits and points is cut in front of each of its points but the first
(`exists_isCutInto`), and the conversion reads the runs in order, up to the first that is a point
alone (`runsOutcome`). As every run has a character, it comes to the end of each text.
-/

namespace Reckoner

open Binary64 Conversion

/-- Digits with at most one point among them. -/
structure IsRun (run : List Char) : Prop where
  chars : ∀ c ∈ run, c.isDigit ∨ c = '.'
  point : run.count '.' ≤ 1

/-- The longest beginning of a text that is a run. -/
structure IsLongestRun (cs run : List Char) : Prop where
  isRun : IsRun run
  front : run <+: cs
  longest : ∀ longer, longer <+: cs → IsRun longer → longer.length ≤ run.length

/-- A run with a digit stands for the double nearest to what it spells. -/
structure StandsFor (run : List Char) (v : Float) : Prop where
  digit : ∃ c ∈ run, c.isDigit
  rounds : ∃ q, SpellsNumeral run q ∧ Rounds false q (ofFloat v)

/-- What comes of reading a number from the run at the front of a text, when `rest` stands behind
the run. -/
inductive NumberOutcome (run rest : List Char) : Except Fault (Float × List Char) → Prop where
  | read {v : Float} (value : StandsFor run v) : NumberOutcome run rest (.ok (v, rest))
  | refused (hrun : run = [] ∨ run = ['.']) :
      NumberOutcome run rest (.error (.badNumber (String.ofList run)))

/-- Digits and points that stand between `before` and `after`, and go on in neither of them. -/
structure IsBlock (before block after : List Char) : Prop where
  ne_nil : block ≠ []
  chars : ∀ c ∈ block, Numeral.isStart c
  before : ∀ c ∈ before.getLast?, Numeral.isStart c = false
  after : EndsRun after

/-- A block is cut into as many runs as it has points, or into one run if it has none. -/
structure IsCutInto (block : List Char) (runs : List (List Char)) : Prop where
  flatten : runs.flatten = block
  length : runs.length = max 1 (block.count '.')
  isRun : ∀ run ∈ runs, run ≠ [] ∧ IsRun run
  points : ∀ run ∈ runs.tail, run.head? = some '.'

/-- What comes of reading runs one after the other: their values, or the fault of the first run that
is a point alone. -/
inductive RunsOutcome (c : Conversion) (runs : List (List Char)) :
    Except Fault (List Token × Conversion) → Prop where
  | read {vs : List Float} (values : List.Forall₂ StandsFor runs vs) :
      RunsOutcome c runs (.ok (vs.map .number, ⟨c.held, false⟩))
  | refused {front later : List (List Char)} {vs : List Float}
      (split : runs = front ++ ['.'] :: later)
      (values : List.Forall₂ StandsFor front vs) :
      RunsOutcome c runs (.error (.badNumber "."))

/-! ### One run -/

section Run

variable {cs run rest : List Char}

theorem length_le_takeRun {b : Bool} (hchars : ∀ c ∈ run, c.isDigit ∨ c = '.')
    (hpoint : run.count '.' ≤ if b then 1 else 0) (rest : List Char) :
    run.length ≤ (takeRun b (run ++ rest)).1.length := by
  induction run generalizing b with
  | nil => exact Nat.zero_le _
  | cons c run ih =>
    obtain ⟨hc, hrun⟩ := List.forall_mem_cons.mp hchars
    by_cases hd : c.isDigit
    · have hne : c ≠ '.' := ne_of_isDigit hd rfl
      rw [List.count_cons_of_ne hne] at hpoint
      simpa [takeRun, hd] using ih hrun hpoint
    · obtain rfl : c = '.' := hc.resolve_left hd
      rw [List.count_cons_self] at hpoint
      cases b with
      | false => simp at hpoint
      | true =>
        have hrest : run.count '.' ≤ if false then 1 else 0 := by simpa using hpoint
        simpa [takeRun, hd] using ih hrun hrest

theorem isLongestRun_takeRun (cs : List Char) : IsLongestRun cs (takeRun true cs).1 where
  isRun := ⟨fun _ => mem_takeRun, by simpa using count_point_takeRun true cs⟩
  front := ⟨_, takeRun_append true cs⟩
  longest := by
    rintro longer ⟨rest, rfl⟩ h
    exact length_le_takeRun h.chars (by simpa using h.point) rest

theorem rest_takeRun (b : Bool) (cs : List Char) :
    (takeRun b cs).2 = cs.drop (takeRun b cs).1.length := by
  have happend := takeRun_append b cs
  generalize takeRun b cs = split at happend ⊢
  rw [← happend, List.drop_left]

/-- A run ends at the end of the text, or where neither a digit nor a point follows, or in front of
a second point. -/
theorem point_of_mem_head?_takeRun {b : Bool} {c : Char} (hc : c ∈ (takeRun b cs).2.head?)
    (hstart : Numeral.isStart c = true) :
    c = '.' ∧ (takeRun b cs).1.count '.' = if b then 1 else 0 := by
  fun_induction takeRun b cs with
  | case1 => cases hc
  | case2 b d cs hd run rest heq ih =>
    rw [heq] at ih
    have hne : d ≠ '.' := ne_of_isDigit hd rfl
    rw [List.count_cons_of_ne hne]
    exact ih hc
  | case3 b d cs hd hp run rest heq ih =>
    rw [heq] at ih
    obtain ⟨rfl, rfl⟩ := hp
    obtain ⟨hpoint, hcount⟩ := ih hc
    refine ⟨hpoint, ?_⟩
    rw [List.count_cons_self, hcount]
    rfl
  | case4 b d cs hd hp =>
    obtain rfl : d = c := by simpa using hc
    have hpoint : d = '.' := by simpa [Numeral.isStart, hd] using hstart
    exact ⟨hpoint, by simpa [hpoint] using hp⟩

theorem Numeral.eq_of_value_eq_error {fault : Fault} (h : value run = .error fault) :
    fault = .badNumber (String.ofList run) := by
  unfold value at h
  split at h
  · cases h
  · exact (Except.error.inj h).symm

theorem IsRun.standsFor {v : Float} (h : IsRun run) (hvalue : Numeral.value run = .ok v) :
    StandsFor run v := by
  have hnumeral := isNumeral_of_value h.chars h.point hvalue
  obtain ⟨d, hd⟩ := hnumeral.exists_decimal
  obtain rfl : d.toFloat = v := by
    rw [Numeral.value_of_decimal? hd] at hvalue
    exact Except.ok.inj hvalue
  exact ⟨hnumeral.digit, d.value, hnumeral.spellsNumeral hd, Decimal.rounds_toFloat false d⟩

theorem numberOutcome_read (cs : List Char) :
    NumberOutcome (takeRun true cs).1 (takeRun true cs).2 (Numeral.read cs) := by
  have hrun := (isLongestRun_takeRun cs).isRun
  rw [Numeral.read]
  generalize takeRun true cs = split at hrun ⊢
  obtain ⟨run, rest⟩ := split
  cases hvalue : Numeral.value run with
  | ok v =>
    simp only [hvalue]
    exact .read (hrun.standsFor hvalue)
  | error fault =>
    simp only [hvalue]
    rw [Numeral.eq_of_value_eq_error hvalue]
    refine .refused ?_
    by_cases hne : run = []
    · exact .inl hne
    · exact .inr (eq_point_of_value hne hvalue).1

end Run

/-! ### Blocks -/

section Blocks

variable {cs before block after : List Char} {runs : List (List Char)}

theorem ne_nil_of_mem_lexemes {run : List Char} (h : .number run ∈ lexemes cs) : run ≠ [] := by
  fun_induction lexemes cs with
  | case1 => cases h
  | case2 c cs hc ih =>
    rcases List.mem_cons.mp h with heq | h
    · obtain rfl := Lexeme.number.inj heq
      exact takeRun_ne_nil hc cs
    · exact ih h
  | case3 c cs hc ih =>
    rcases List.mem_cons.mp h with heq | h
    · exact absurd heq.symm (ofChar_ne_number c run)
    · exact ih h

/-- Each lexeme has a character of its own. -/
theorem length_lexemes_le (cs : List Char) : (lexemes cs).length ≤ cs.length := by
  fun_induction lexemes cs with
  | case1 => exact Nat.le_refl 0
  | case2 c cs hc ih =>
    have hlt := Numeral.length_rest_lt hc cs
    rw [List.length_cons]
    omega
  | case3 c cs hc ih =>
    rw [List.length_cons, List.length_cons]
    omega

theorem head?_takeRun {c : Char} (hc : Numeral.isStart c = true) (cs : List Char) :
    (takeRun true (c :: cs)).1.head? = some c := by
  by_cases hd : c.isDigit
  · simp [takeRun, hd]
  · have hpoint : c = '.' := by simpa [Numeral.isStart, hd] using hc
    simp [takeRun, hpoint]

/-- A block is cut in front of each of its points but the first. -/
theorem exists_lexemes_eq (h : ∀ c ∈ block, Numeral.isStart c) :
    ∃ runs : List (List Char), lexemes block = runs.map .number ∧
      (∀ run ∈ runs.head?, run.head? = block.head?) ∧ (∀ run ∈ runs.tail, run.head? = some '.') ∧
      (block ≠ [] → runs.length = max 1 (block.count '.')) := by
  fun_induction lexemes block with
  | case1 => exact ⟨[], rfl, by simp, by simp, fun h => absurd rfl h⟩
  | case2 c cs hc ih =>
    -- What stands behind the first run starts with a point, and the run has had one: the points are
    -- that one and those of the rest, where the rest is cut into one run for each.
    have happend := takeRun_append true (c :: cs)
    have hpoint := @point_of_mem_head?_takeRun (c :: cs) true
    have hcount := count_point_takeRun true (c :: cs)
    have hhead := head?_takeRun hc cs
    generalize takeRun true (c :: cs) = split at *
    obtain ⟨run, rest⟩ := split
    dsimp only at *
    rw [← happend] at h ⊢
    obtain ⟨hrun, hrest⟩ := List.forall_mem_append.mp h
    obtain ⟨runs, hlexemes, hfirst, hlater, hlength⟩ := ih hrest
    refine ⟨run :: runs, by rw [hlexemes]; rfl, by simp [List.head?_append, hhead], ?_⟩
    cases rest with
    | nil =>
      obtain rfl : runs = [] := by simpa [lexemes] using hlexemes.symm
      exact ⟨List.forall_mem_nil _, fun _ => by simpa using hcount⟩
    | cons d ds =>
      obtain ⟨rfl, hone⟩ := hpoint rfl (hrest d List.mem_cons_self)
      refine ⟨?_, fun _ => ?_⟩
      · intro run' hrun'
        cases runs with
        | nil => cases hrun'
        | cons first runs =>
          rcases List.mem_cons.mp hrun' with rfl | hrun'
          · exact hfirst _ rfl
          · exact hlater _ hrun'
      · rw [List.length_cons, hlength (List.cons_ne_nil _ _), List.count_append, hone,
          List.count_cons_self, if_pos rfl]
        omega
  | case3 c cs hc ih => exact absurd (h c List.mem_cons_self) hc

theorem exists_isCutInto (hne : block ≠ []) (h : ∀ c ∈ block, Numeral.isStart c) :
    ∃ runs : List (List Char), IsCutInto block runs ∧ lexemes block = runs.map .number := by
  obtain ⟨runs, hlexemes, -, hlater, hlength⟩ := exists_lexemes_eq h
  refine ⟨runs, ⟨?_, hlength hne, fun run hrun => ?_, hlater⟩, hlexemes⟩
  · have hflat := flatMap_chars_lexemes block
    rw [hlexemes, List.flatMap_map] at hflat
    simpa [Lexeme.chars] using hflat
  · have hmem : .number run ∈ lexemes block := hlexemes ▸ List.mem_map_of_mem hrun
    obtain ⟨hchars, hpoint⟩ := isRun_of_mem_lexemes hmem
    exact ⟨ne_nil_of_mem_lexemes hmem, hchars, hpoint⟩

/-- Where a text ends with no digit and no point, what stands behind it is cut by itself. -/
theorem lexemes_append_of_getLast? (h : ∀ c ∈ before.getLast?, Numeral.isStart c = false)
    (cs : List Char) : lexemes (before ++ cs) = lexemes before ++ lexemes cs := by
  rcases List.eq_nil_or_concat before with rfl | ⟨init, c, rfl⟩
  · rw [lexemes, List.nil_append, List.nil_append]
  · rw [List.concat_eq_append] at h ⊢
    have hc : Numeral.isStart c = false := h c (by simp)
    rw [List.append_assoc, List.singleton_append, lexemes_append (EndsRun.cons hc cs),
      lexemes_append (EndsRun.cons hc []), lexemes_cons hc, lexemes_cons hc, List.append_assoc,
      lexemes]
    rfl

theorem IsBlock.lexemes_eq (h : IsBlock before block after) :
    lexemes (before ++ block ++ after) = lexemes before ++ lexemes block ++ lexemes after := by
  rw [List.append_assoc, lexemes_append_of_getLast? h.before, lexemes_append h.after,
    List.append_assoc]

end Blocks

/-! ### Reading the runs of a block -/

section Reading

variable {c : Conversion} {runs : List (List Char)}

theorem runsOutcome (c : Conversion) (hne : runs ≠ [])
    (hruns : ∀ run ∈ runs, run ≠ [] ∧ IsRun run) :
    RunsOutcome c runs (transduce step c (runs.map .number)) := by
  induction runs generalizing c with
  | nil => exact absurd rfl hne
  | cons run runs ih =>
    obtain ⟨⟨hrun, hisRun⟩, hrest⟩ := List.forall_mem_cons.mp hruns
    obtain ⟨held, signPlace⟩ := c
    rw [List.map_cons]
    cases hvalue : Numeral.value run with
    | error fault =>
      obtain ⟨rfl, rfl⟩ := eq_point_of_value hrun hvalue
      have hstep : step ⟨held, signPlace⟩ (.number ['.']) = .error (.badNumber ".") := rfl
      rw [transduce_cons_of_error hstep]
      exact @RunsOutcome.refused _ _ [] runs [] rfl .nil
    | ok v =>
      have hstep : step ⟨held, signPlace⟩ (.number run) = .ok ([.number v], ⟨held, false⟩) := by
        rw [step, hvalue]
        rfl
      have hv := hisRun.standsFor hvalue
      rw [transduce_cons_of_ok hstep]
      -- Where no run is left the sign place is as it was, so the last run is a case of its own.
      by_cases hnil : runs = []
      · subst hnil
        exact @RunsOutcome.read _ _ [v] (.cons hv .nil)
      have hlater := ih ⟨held, false⟩ hnil hrest
      generalize transduce step ⟨held, false⟩ (runs.map .number) = r at hlater ⊢
      cases hlater with
      | read values => exact .read (.cons hv values)
      | refused split values =>
        subst split
        exact @RunsOutcome.refused _ _ (run :: _) _ _ rfl (.cons hv values)

theorem StandsFor.ne_point {run : List Char} {v : Float} (h : StandsFor run v) : run ≠ ['.'] := by
  rintro rfl
  obtain ⟨c, hc, hd⟩ := h.digit
  rw [List.mem_singleton.mp hc] at hd
  cases hd

/-- A lone point among the runs is a fault, whatever is held. -/
theorem RunsOutcome.eq_error {r : Except Fault (List Token × Conversion)} (h : RunsOutcome c runs r)
    (hpoint : ['.'] ∈ runs) : r = .error (.badNumber ".") := by
  cases h with
  | read values =>
    have hno := ((List.forall₂_and_left _ _).mp (values.imp fun _ _ h => ⟨h.ne_point, h⟩)).1
    exact absurd rfl (hno ['.'] hpoint)
  | refused => rfl

/-- Once the conversion has come to the block, a lone point in it is the fault of the whole text. -/
theorem toRpn_of_lone_point {before block after : List Char} {out : List Token}
    (hlexemes : lexemes (before ++ block ++ after) =
      lexemes before ++ runs.map .number ++ lexemes after)
    (hbefore : transduce step .start (lexemes before) = .ok (out, c))
    (hblock : transduce step c (runs.map .number) = .error (.badNumber ".")) :
    toRpn (before ++ block ++ after) = .error (.badNumber ".") := by
  rw [toRpn, hlexemes, transduce_append, transduce_append, hbefore]
  show ((transduce step c (runs.map .number) >>= _) >>= _) >>= _ = _
  rw [hblock]
  rfl

end Reading

/-- Reading a number takes the longest run at the front, at any place of a text. It gives the double
nearest to what the run spells if the run has a digit; else the run is empty or a lone point, and
is the fault. Where the conversion reads a number it goes on by one character at least, so it comes
to the end of each text. A block of digits and points is cut into a run for each of its points, or
into one if it has none. Each but the first starts with its point, and the first run that is a lone
point is a fault. -/
theorem read_longestRun :
    (∀ (cs : List Char) (start : Nat), start ≤ cs.length →
      ∃ run, IsLongestRun (cs.drop start) run ∧ start + run.length ≤ cs.length ∧
        NumberOutcome run (cs.drop (start + run.length)) (Numeral.read (cs.drop start)) ∧
        ∀ c ∈ cs[start]?, Numeral.isStart c → 0 < run.length ∧
          lexemes (cs.drop start) = .number run :: lexemes (cs.drop (start + run.length))) ∧
    (∀ cs : List Char, (lexemes cs).length ≤ cs.length) ∧
    ∀ before block after : List Char, IsBlock before block after → ∃ runs, IsCutInto block runs ∧
      lexemes (before ++ block ++ after) =
        lexemes before ++ runs.map .number ++ lexemes after ∧
      (∀ c, RunsOutcome c runs (transduce step c (runs.map .number))) ∧
      ∀ out c, transduce step .start (lexemes before) = .ok (out, c) → ['.'] ∈ runs →
        toRpn (before ++ block ++ after) = .error (.badNumber ".") := by
  refine ⟨fun cs start hstart => ?_, length_lexemes_le, fun before block after h => ?_⟩
  · have happend := takeRun_append true (cs.drop start)
    have hrest : (takeRun true (cs.drop start)).2 =
        cs.drop (start + (takeRun true (cs.drop start)).1.length) := by
      rw [rest_takeRun, List.drop_drop]
    have hlength := congrArg List.length happend
    rw [List.length_append, List.length_drop] at hlength
    refine ⟨_, isLongestRun_takeRun (cs.drop start), by omega, ?_, fun c hc hisStart => ?_⟩
    · rw [← hrest]
      exact numberOutcome_read (cs.drop start)
    · obtain ⟨hlt, rfl⟩ := List.getElem?_eq_some_iff.mp hc
      rw [← hrest, List.drop_eq_getElem_cons hlt, lexemes_cons_of_isStart hisStart]
      exact ⟨List.length_pos_iff.mpr (takeRun_ne_nil hisStart _), rfl⟩
  · obtain ⟨runs, hcut, hblock⟩ := exists_isCutInto h.ne_nil h.chars
    have hlexemes : lexemes (before ++ block ++ after) =
        lexemes before ++ runs.map .number ++ lexemes after := by
      rw [h.lexemes_eq, hblock]
    have houtcome (c : Conversion) : RunsOutcome c runs (transduce step c (runs.map .number)) := by
      refine runsOutcome c ?_ hcut.isRun
      rintro rfl
      exact h.ne_nil hcut.flatten.symm
    refine ⟨runs, hcut, hlexemes, houtcome, fun out c hbefore hpoint => ?_⟩
    exact toRpn_of_lone_point hlexemes hbefore ((houtcome c).eq_error hpoint)

/-- In `1.2.3` a number starts at the second point, and in `(1...2)` the point between the others
stands alone. -/
theorem read_longestRun_secondPoint :
    (∃ run, IsLongestRun ['.', '3'] run ∧ 0 < run.length ∧
      NumberOutcome run (['1', '.', '2', '.', '3'].drop (3 + run.length))
        (Numeral.read ['.', '3'])) ∧
    ∃ runs, IsCutInto ['1', '.', '.', '.', '2'] runs ∧ ['.'] ∈ runs ∧
      toRpn ['(', '1', '.', '.', '.', '2', ')'] = .error (.badNumber ".") := by
  obtain ⟨hread, -, hcut⟩ := read_longestRun
  obtain ⟨run, hlongest, -, houtcome, hlexemes⟩ := hread ['1', '.', '2', '.', '3'] 3 (by decide)
  obtain ⟨hpos, -⟩ := hlexemes '.' rfl rfl
  refine ⟨⟨run, hlongest, hpos, houtcome⟩, ?_⟩
  have hblock : IsBlock ['('] ['1', '.', '.', '.', '2'] [')'] :=
    ⟨by simp, by simp [Numeral.isStart], by simp [Numeral.isStart], EndsRun.cons rfl []⟩
  obtain ⟨runs, hruns, hlexemes, -, hfault⟩ := hcut _ _ _ hblock
  have hbefore : lexemes ['('] = [.opening] := by rw [lexemes_cons rfl, lexemes]; rfl
  have hafter : lexemes [')'] = [.closing] := by rw [lexemes_cons rfl, lexemes]; rfl
  have hpoint : ['.'] ∈ runs := by
    have hmem : .number ['.'] ∈ lexemes ['(', '1', '.', '.', '.', '2', ')'] := by decide +kernel
    rw [show ['(', '1', '.', '.', '.', '2', ')'] = ['('] ++ ['1', '.', '.', '.', '2'] ++ [')'] from
      rfl, hlexemes, hbefore, hafter] at hmem
    simpa using hmem
  exact ⟨runs, hruns, hpoint, hfault [] ⟨[.opening], true⟩ (by rw [hbefore]; rfl) hpoint⟩

end Reckoner
