import Reckoner.Number.Decimal
import Reckoner.Fault

/-!
# Numerals

A numeral is a run of ASCII digits with at most one point among them. `takeRun` splits the longest
run off a text: a second point ends it, and starts the next one. A run is a number if it has a
digit, so `.5` and `5.` are, and a lone point is not.
-/

namespace Reckoner

/-- Splits a text after its longest beginning made of digits with at most one point, or with none
if `pointAllowed` is false. -/
def takeRun (pointAllowed : Bool) : List Char → List Char × List Char
  | [] => ([], [])
  | c :: cs =>
    if c.isDigit then
      let (run, rest) := takeRun pointAllowed cs
      (c :: run, rest)
    else if c = '.' ∧ pointAllowed then
      let (run, rest) := takeRun false cs
      (c :: run, rest)
    else ([], c :: cs)

theorem takeRun_append (b : Bool) (cs : List Char) :
    (takeRun b cs).1 ++ (takeRun b cs).2 = cs := by
  fun_induction takeRun b cs <;> simp_all

theorem length_takeRun_le (b : Bool) (cs : List Char) : (takeRun b cs).2.length ≤ cs.length := by
  have h := congrArg List.length (takeRun_append b cs)
  simp only [List.length_append] at h
  omega

theorem ne_of_isDigit {c d : Char} (hc : c.isDigit = true) (hd : d.isDigit = false) : c ≠ d := by
  rintro rfl
  rw [hc] at hd
  cases hd

theorem mem_takeRun {b : Bool} {cs : List Char} {c : Char} (h : c ∈ (takeRun b cs).1) :
    c.isDigit ∨ c = '.' := by
  fun_induction takeRun b cs with
  | case1 => cases h
  | case2 b d cs hd run rest heq ih =>
    rcases List.mem_cons.mp h with rfl | h
    · exact .inl hd
    · exact ih (by simpa [heq] using h)
  | case3 b d cs hd hp run rest heq ih =>
    rcases List.mem_cons.mp h with rfl | h
    · exact .inr hp.1
    · exact ih (by simpa [heq] using h)
  | case4 => cases h

theorem count_point_takeRun (b : Bool) (cs : List Char) :
    (takeRun b cs).1.count '.' ≤ if b then 1 else 0 := by
  fun_induction takeRun b cs with
  | case1 => simp
  | case2 b d cs hd run rest heq ih =>
    have hne : d ≠ '.' := ne_of_isDigit hd rfl
    rw [heq] at ih
    simpa [List.count_cons, hne] using ih
  | case3 b d cs hd hp run rest heq ih =>
    rw [heq] at ih
    obtain ⟨rfl, rfl⟩ := hp
    simpa using ih
  | case4 => simp

theorem takeRun_eq_self {b : Bool} {run : List Char} (hchars : ∀ c ∈ run, c.isDigit ∨ c = '.')
    (hpoint : run.count '.' ≤ if b then 1 else 0) : takeRun b run = (run, []) := by
  induction run generalizing b with
  | nil => rfl
  | cons c run ih =>
    have htail : ∀ d ∈ run, d.isDigit ∨ d = '.' := fun d hd => hchars d (List.mem_cons_of_mem c hd)
    by_cases hd : c.isDigit
    · have hne : c ≠ '.' := ne_of_isDigit hd rfl
      rw [List.count_cons, if_neg (by simpa using hne)] at hpoint
      simp [takeRun, hd, ih htail hpoint]
    · obtain rfl : c = '.' := (hchars c (by simp)).resolve_left hd
      rw [List.count_cons_self] at hpoint
      obtain rfl : b = true := by
        cases b with
        | false => simp at hpoint
        | true => rfl
      have hrest : takeRun false run = (run, []) := ih htail (by simpa using hpoint)
      simp [takeRun, hd, hrest]

namespace Numeral

/-- The characters with which a run can start. -/
def isStart (c : Char) : Bool :=
  c.isDigit || c = '.'

def whole (run : List Char) : List Char :=
  run.takeWhile (· ≠ '.')

def fraction (run : List Char) : List Char :=
  (run.dropWhile (· ≠ '.')).drop 1

/-- The number that a run stands for, if it has a digit. -/
def decimal? (run : List Char) : Option Decimal :=
  match whole run ++ fraction run with
  | [] => none
  | ds => some ⟨Nat.ofDigitChars 10 ds 0, -((fraction run).length : Int)⟩

def value (run : List Char) : Except Fault Float :=
  match decimal? run with
  | some d => .ok d.toFloat
  | none => .error (.badNumber (String.ofList run))

theorem value_of_decimal? {run : List Char} {d : Decimal} (h : decimal? run = some d) :
    value run = .ok d.toFloat := by
  rw [value, h]

/-- Reads the number at the front of a text and returns what follows it. -/
def read (cs : List Char) : Except Fault (Float × List Char) := do
  let (run, rest) := takeRun true cs
  return (← value run, rest)

theorem length_rest_lt {c : Char} (h : isStart c = true) (cs : List Char) :
    (takeRun true (c :: cs)).2.length < (c :: cs).length := by
  have h₁ := length_takeRun_le true cs
  have h₂ := length_takeRun_le false cs
  simp only [isStart, Bool.or_eq_true, decide_eq_true_eq] at h
  by_cases hd : c.isDigit
  · simp only [takeRun, hd, if_true, List.length_cons]
    omega
  · obtain rfl : c = '.' := h.resolve_left hd
    have hrest : (takeRun true ('.' :: cs)).2 = (takeRun false cs).2 := rfl
    rw [hrest, List.length_cons]
    omega

end Numeral

end Reckoner
