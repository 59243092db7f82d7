import Reckoner.Fault

/-!
# Blanks

The blank characters are those with the Unicode property `White_Space`. They mean nothing in an
expression or an equation and are taken out before anything else is read.
-/

namespace Reckoner

/-- The ranges of code points that have the property `White_Space`. -/
def blankRanges : List (Nat × Nat) :=
  [(0x09, 0x0D), (0x20, 0x20), (0x85, 0x85), (0xA0, 0xA0), (0x1680, 0x1680), (0x2000, 0x200A),
    (0x2028, 0x2029), (0x202F, 0x202F), (0x205F, 0x205F), (0x3000, 0x3000)]

def isBlank (c : Char) : Bool :=
  blankRanges.any fun (first, last) => first ≤ c.toNat && c.toNat ≤ last

/-- A text without its blanks. -/
def withoutBlanks (cs : List Char) : List Char :=
  cs.filter (!isBlank ·)

/-- The text of an expression without its blanks, if anything is left of it. -/
def normalise (cs : List Char) : Except Fault (List Char) :=
  match withoutBlanks cs with
  | [] => .error .emptyInput
  | c :: rest => .ok (c :: rest)

theorem isBlank_of_isWhitespace {c : Char} (h : c.isWhitespace = true) : isBlank c = true := by
  simp only [Char.isWhitespace, Bool.or_eq_true, decide_eq_true_eq] at h
  rcases h with ((rfl | rfl) | rfl) | rfl <;> rfl

theorem isBlank_eq_false_of_mem_withoutBlanks {c : Char} {cs : List Char}
    (h : c ∈ withoutBlanks cs) : isBlank c = false := by
  simpa using (List.mem_filter.mp h).2

theorem withoutBlanks_append (cs ds : List Char) :
    withoutBlanks (cs ++ ds) = withoutBlanks cs ++ withoutBlanks ds :=
  List.filter_append ..

theorem withoutBlanks_withoutBlanks (cs : List Char) :
    withoutBlanks (withoutBlanks cs) = withoutBlanks cs := by
  simp [withoutBlanks]

theorem withoutBlanks_eq_self {cs : List Char} (h : ∀ c ∈ cs, isBlank c = false) :
    withoutBlanks cs = cs :=
  List.filter_eq_self.mpr fun c hc => by rw [h c hc]; rfl

theorem normalise_eq_ok {cs ds : List Char} (h : withoutBlanks cs = ds) (hne : ds ≠ []) :
    normalise cs = .ok ds := by
  rw [normalise, h]
  cases ds with
  | nil => exact absurd rfl hne
  | cons => rfl

theorem withoutBlanks_eq_of_normalise {cs ds : List Char} (h : normalise cs = .ok ds) :
    withoutBlanks cs = ds := by
  unfold normalise at h
  split at h
  · cases h
  · rename_i heq
    rw [heq]
    exact Except.ok.inj h

theorem isBlank_of_isDigit {c : Char} (h : c.isDigit = true) : isBlank c = false := by
  simp only [Char.isDigit, ge_iff_le, Bool.and_eq_true, decide_eq_true_eq] at h
  have hlow : 48 ≤ c.toNat := h.1
  have hhigh : c.toNat ≤ 57 := h.2
  simp only [isBlank, blankRanges, List.any_cons, List.any_nil, Bool.or_false, Bool.or_eq_false_iff,
    Bool.and_eq_false_iff, decide_eq_false_iff_not]
  omega

/-- `Spaced cs ds`: the text `ds` is `cs` with blanks put in anywhere. -/
inductive Spaced : List Char → List Char → Prop where
  | nil : Spaced [] []
  | char (c : Char) {cs ds : List Char} (h : Spaced cs ds) : Spaced (c :: cs) (c :: ds)
  | blank {b : Char} (hb : isBlank b = true) {cs ds : List Char} (h : Spaced cs ds) :
      Spaced cs (b :: ds)

namespace Spaced

theorem refl (cs : List Char) : Spaced cs cs := by
  induction cs with
  | nil => exact nil
  | cons c cs ih => exact char c ih

theorem withoutBlanks_eq {cs ds : List Char} (h : Spaced cs ds) :
    withoutBlanks ds = withoutBlanks cs := by
  induction h with
  | nil => rfl
  | char c h ih =>
    unfold withoutBlanks at *
    rw [List.filter_cons, List.filter_cons, ih]
  | blank hb h ih =>
    unfold withoutBlanks at *
    rw [List.filter_cons, hb, ← ih]
    rfl

end Spaced

theorem spaced_withoutBlanks (cs : List Char) : Spaced (withoutBlanks cs) cs := by
  induction cs with
  | nil => exact .nil
  | cons c cs ih =>
    unfold withoutBlanks at *
    rw [List.filter_cons]
    cases hc : isBlank c with
    | false => exact .char c ih
    | true => exact .blank hc ih

end Reckoner
