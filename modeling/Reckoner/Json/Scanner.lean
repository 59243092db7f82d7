import Reckoner.Text.Literal

/-!
# Pieces of a JSON text

`scan` splits a JSON text into its pieces: punctuation marks, and values without parts. Blanks
separate pieces and mean nothing else. Every JSON text is split, with all escapes of strings,
surrogate pairs, and all forms of numbers; a number is the double nearest to it. Nothing here
looks at how a text was written.
-/

namespace Reckoner

namespace Json

inductive Piece where
  | mark (c : Char)
  | null
  | flag (value : Bool)
  | number (value : Float)
  | text (value : String)
  deriving DecidableEq, Repr

def isSpace (c : Char) : Bool :=
  [' ', '\n', '\r', '\t'].contains c

def isMark (c : Char) : Bool :=
  ['[', ']', '\x7b', '\x7d', ':', ','].contains c

section Strings

def hexDigit? (c : Char) : Option Nat :=
  if c.isDigit then some (c.toNat - '0'.toNat)
  else if 'a' ≤ c ∧ c ≤ 'f' then some (c.toNat - 'a'.toNat + 10)
  else if 'A' ≤ c ∧ c ≤ 'F' then some (c.toNat - 'A'.toNat + 10)
  else none

/-- The number of four hexadecimal digits, and what follows them. -/
def codeUnit? : List Char → Option (Nat × List Char)
  | c₁ :: c₂ :: c₃ :: c₄ :: cs => do
    let high := (← hexDigit? c₁) * 16 + (← hexDigit? c₂)
    let low := (← hexDigit? c₃) * 16 + (← hexDigit? c₄)
    return (high * 256 + low, cs)
  | _ => none

def isHighSurrogate (n : Nat) : Bool :=
  0xD800 ≤ n && n < 0xDC00

def isLowSurrogate (n : Nat) : Bool :=
  0xDC00 ≤ n && n < 0xE000

/-- A code unit with its own backslash in front of it, if it is a low surrogate. -/
def lowSurrogate? : List Char → Option (Nat × List Char)
  | '\\' :: 'u' :: cs => (codeUnit? cs).filter (isLowSurrogate ·.1)
  | _ => none

/-- The character after `\u`: one code unit, or two surrogates that make one character. -/
def unicode? (cs : List Char) : Option (Char × List Char) := do
  let (n, rest) ← codeUnit? cs
  if isHighSurrogate n then
    let (low, rest) ← lowSurrogate? rest
    return (Char.ofNat (0x10000 + (n - 0xD800) * 0x400 + (low - 0xDC00)), rest)
  else if isLowSurrogate n then none
  else return (Char.ofNat n, rest)

/-- The character that a letter after a backslash stands for. -/
def unescape? : Char → Option Char
  | '"' => some '"'
  | '\\' => some '\\'
  | '/' => some '/'
  | 'b' => some '\x08'
  | 'f' => some '\x0c'
  | 'n' => some '\n'
  | 'r' => some '\r'
  | 't' => some '\t'
  | _ => none

/-- One character of a string, and what follows it. -/
def char? : List Char → Option (Char × List Char)
  | [] => none
  | '\\' :: 'u' :: cs => unicode? cs
  | '\\' :: c :: cs => (unescape? c).map (·, cs)
  | c :: cs => if c = '"' ∨ c = '\\' ∨ c.toNat < 0x20 then none else some (c, cs)

variable {cs rest : List Char} {c : Char}

theorem length_codeUnit?_lt {n : Nat} (h : codeUnit? cs = some (n, rest)) :
    rest.length < cs.length := by
  unfold codeUnit? at h
  split at h
  · simp only [Option.bind_eq_bind, Option.bind_eq_some_iff, pure, Option.some.injEq,
      Prod.mk.injEq] at h
    obtain ⟨-, -, -, -, -, -, -, -, -, rfl⟩ := h
    simp only [List.length_cons]
    omega
  · cases h

theorem length_lowSurrogate?_lt {n : Nat} (h : lowSurrogate? cs = some (n, rest)) :
    rest.length < cs.length := by
  unfold lowSurrogate? at h
  split at h
  · have := length_codeUnit?_lt (Option.filter_eq_some_iff.mp h).1
    simp only [List.length_cons]
    omega
  · cases h

theorem length_unicode?_lt (h : unicode? cs = some (c, rest)) : rest.length < cs.length := by
  simp only [unicode?, Option.bind_eq_bind, Option.bind_eq_some_iff] at h
  obtain ⟨⟨n, rest₁⟩, hunit, h⟩ := h
  have hlt := length_codeUnit?_lt hunit
  split at h
  · obtain ⟨⟨low, rest₂⟩, hlow, h⟩ := Option.bind_eq_some_iff.mp h
    obtain ⟨-, rfl⟩ := Prod.mk.inj (Option.some.inj h)
    exact Nat.lt_trans (length_lowSurrogate?_lt hlow) hlt
  · split at h
    · cases h
    · cases h
      exact hlt

theorem length_char?_lt (h : char? cs = some (c, rest)) : rest.length < cs.length := by
  unfold char? at h
  split at h
  · cases h
  · have := length_unicode?_lt h
    simp only [List.length_cons]
    omega
  · simp only [Option.map_eq_some_iff, Prod.mk.injEq] at h
    obtain ⟨-, -, -, rfl⟩ := h
    simp only [List.length_cons]
    omega
  · split at h
    · cases h
    · cases h
      simp

/-- The characters up to the closing quote, and what follows it. -/
def string? : List Char → Option (List Char × List Char)
  | '"' :: cs => some ([], cs)
  | cs =>
    match _h : char? cs with
    | some (c, rest) => (string? rest).map fun (s, rest) => (c :: s, rest)
    | none => none
termination_by cs => cs.length
decreasing_by exact length_char?_lt ‹_›

theorem length_string?_lt {s : List Char} (h : string? cs = some (s, rest)) :
    rest.length < cs.length := by
  fun_induction string? cs generalizing s with
  | case1 cs =>
    cases h
    simp
  | case2 cs hquote c rest₁ hchar ih =>
    obtain ⟨⟨s', rest'⟩, hrest, heq⟩ := Option.map_eq_some_iff.mp h
    cases heq
    exact Nat.lt_trans (ih hrest) (length_char?_lt hchar)
  | case3 => cases h

end Strings

section Numbers

def takeMinus : List Char → Bool × List Char
  | '-' :: cs => (true, cs)
  | cs => (false, cs)

/-- The digits after the point, if there is one. -/
def fraction? : List Char → Option (List Char × List Char)
  | '.' :: cs =>
    let ds := cs.takeWhile Char.isDigit
    if ds = [] then none else some (ds, cs.dropWhile Char.isDigit)
  | cs => some ([], cs)

/-- Without a zero at the front, unless it is the only digit. -/
def isWhole : List Char → Bool
  | [] => false
  | [_] => true
  | c :: _ => c != '0'

/-- The double nearest to a number, with nothing after the number. -/
def number? (cs : List Char) : Option Float := do
  let (negative, unsigned) := takeMinus cs
  let whole := unsigned.takeWhile Char.isDigit
  let (fraction, rest) ← fraction? (unsigned.dropWhile Char.isDigit)
  let e ← Literal.exponent? rest
  if isWhole whole then
    let magnitude := ⟨Nat.ofDigitChars 10 (whole ++ fraction) 0, e - fraction.length⟩
    return Literal.toFloat ⟨negative, magnitude⟩
  else none

/-- The characters that numbers are made of. -/
def isNumberChar (c : Char) : Bool :=
  c.isDigit || ['-', '+', '.', 'e', 'E'].contains c

end Numbers

/-- The piece at the front of a text, and what follows it. -/
def piece? : List Char → Option (Piece × List Char)
  | [] => none
  | '"' :: cs => (string? cs).map fun (s, rest) => (.text (String.ofList s), rest)
  | 't' :: 'r' :: 'u' :: 'e' :: cs => some (.flag true, cs)
  | 'f' :: 'a' :: 'l' :: 's' :: 'e' :: cs => some (.flag false, cs)
  | 'n' :: 'u' :: 'l' :: 'l' :: cs => some (.null, cs)
  | c :: cs =>
    if isMark c then some (.mark c, cs)
    else
      (number? ((c :: cs).takeWhile isNumberChar)).map
        (.number ·, (c :: cs).dropWhile isNumberChar)

theorem length_piece?_lt {cs rest : List Char} {p : Piece} (h : piece? cs = some (p, rest)) :
    rest.length < cs.length := by
  unfold piece? at h
  split at h
  · cases h
  · simp only [Option.map_eq_some_iff, Prod.mk.injEq] at h
    obtain ⟨⟨s, rest'⟩, hs, -, rfl⟩ := h
    exact Nat.lt_succ_of_lt (length_string?_lt hs)
  · cases h
    simp only [List.length_cons]
    omega
  · cases h
    simp only [List.length_cons]
    omega
  · cases h
    simp only [List.length_cons]
    omega
  · rename_i c cs _ _ _ _
    split at h
    · cases h
      simp
    · simp only [Option.map_eq_some_iff, Prod.mk.injEq] at h
      obtain ⟨x, hx, -, rfl⟩ := h
      have hrun : (c :: cs).takeWhile isNumberChar ≠ [] := fun hnil => by
        rw [hnil] at hx
        cases hx
      have happend := congrArg List.length
        (List.takeWhile_append_dropWhile (p := isNumberChar) (l := c :: cs))
      have := List.length_pos_iff.mpr hrun
      rw [List.length_append] at happend
      omega

def scan : List Char → Option (List Piece)
  | [] => some []
  | c :: cs =>
    if isSpace c then scan cs
    else
      match _h : piece? (c :: cs) with
      | some (p, rest) => (scan rest).map (p :: ·)
      | none => none
termination_by cs => cs.length
decreasing_by
  · simp
  · exact length_piece?_lt ‹_›

end Json

end Reckoner
