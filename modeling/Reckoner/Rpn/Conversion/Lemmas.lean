import Reckoner.Rpn.Conversion

/-!
# What a conversion holds and releases

Releasing takes operators off the top and changes nothing else (`exists_release`): what comes out
and what is still held are, together, what was held before (`release_tokens`), and the parentheses
stay (`openings_release`). `step_cases` lists all that reading a lexeme can do.
-/

namespace Reckoner.Conversion

/-- The operators that are held, in the order in which they come out. -/
def heldTokens : List Held → List Token
  | [] => []
  | .opening :: held => heldTokens held
  | .operator op :: held => .operator op :: heldTokens held

/-- The number of groups that are open. -/
def openings : List Held → Nat
  | [] => 0
  | .opening :: held => openings held + 1
  | .operator _ :: held => openings held

variable {ready : Operator → Bool} {held rest : List Held} {out : List Token}

theorem release_tokens (ready : Operator → Bool) (held : List Held) :
    (release ready held).1 ++ heldTokens (release ready held).2 = heldTokens held := by
  fun_induction release ready held with
  | case1 op held _ released rest heq ih =>
    rw [heq] at ih
    rw [heldTokens, List.cons_append, ih]
  | case2 | case3 => rfl

theorem openings_release (ready : Operator → Bool) (held : List Held) :
    openings (release ready held).2 = openings held := by
  fun_induction release ready held with
  | case1 op held _ released rest heq ih =>
    rw [heq] at ih
    exact ih
  | case2 | case3 => rfl

/-- What is released are the operators on top that are ready, down to the first one that is not, or
to an opening parenthesis. -/
theorem exists_release (ready : Operator → Bool) (held : List Held) :
    ∃ (released : List Operator) (rest : List Held), held = released.map .operator ++ rest ∧
      release ready held = (released.map .operator, rest) ∧ (∀ op ∈ released, ready op = true) ∧
      ∀ op, rest.head? = some (.operator op) → ready op = false := by
  fun_induction release ready held with
  | case1 op held hready out below heq ih =>
    obtain ⟨released, rest, rfl, hrelease, hreleased, hrest⟩ := ih
    obtain ⟨rfl, rfl⟩ := Prod.mk.inj (hrelease.symm.trans heq)
    exact ⟨op :: released, rest, rfl, rfl, List.forall_mem_cons.mpr ⟨hready, hreleased⟩, hrest⟩
  | case2 op held hready =>
    refine ⟨[], _, rfl, rfl, List.forall_mem_nil _, fun op' hop => ?_⟩
    cases hop
    simpa using hready
  | case3 held hheld =>
    refine ⟨[], held, rfl, rfl, List.forall_mem_nil _, fun op hop => ?_⟩
    cases held with
    | nil => cases hop
    | cons h held =>
      cases hop
      exact absurd rfl (hheld op held)

/-- A sign that is read takes nothing off. -/
theorem release_neg (held : List Held) : release Operator.neg.yieldsTo held = ([], held) := by
  cases held with
  | nil => rfl
  | cons h held =>
    cases h with
    | opening => rfl
    | operator o =>
      have ho : Operator.neg.yieldsTo o = false := by
        rcases o with _ | (_ | _ | _ | _ | _) <;> rfl
      rw [release, if_neg (by simp [ho])]

theorem release_of_finish (h : finish held = .ok out) :
    release (fun _ => true) held = (out, []) := by
  unfold finish at h
  split at h
  · cases h
    assumption
  · cases h

/-- At the end all operators come out, and no group may be open. -/
theorem eq_of_finish (h : finish held = .ok out) : out = heldTokens held ∧ openings held = 0 := by
  have htokens := release_tokens (fun _ => true) held
  have hopenings := openings_release (fun _ => true) held
  rw [release_of_finish h] at htokens hopenings
  rw [← htokens, ← hopenings]
  exact ⟨(List.append_nil _).symm, rfl⟩

variable {signPlace : Bool} {l : Lexeme} {next : Conversion}

theorem step_cases (h : step ⟨held, signPlace⟩ l = .ok (out, next)) :
    (∃ run v, l = .number run ∧ Numeral.value run = .ok v ∧ out = [.number v] ∧
      next = ⟨held, false⟩) ∨
    (∃ op, l = .operator op ∧ out = (release (role signPlace op).yieldsTo held).1 ∧
      next = ⟨.operator (role signPlace op) :: (release (role signPlace op).yieldsTo held).2,
        true⟩) ∨
    (l = .opening ∧ out = [] ∧ next = ⟨.opening :: held, true⟩) ∨
    (∃ rest, l = .closing ∧ release (fun _ => true) held = (out, .opening :: rest) ∧
      next = ⟨rest, false⟩) := by
  cases l with
  | number run =>
    obtain ⟨v, hv, h⟩ := bind_eq_ok.mp h
    cases h
    exact .inl ⟨run, v, rfl, hv, rfl, rfl⟩
  | operator op =>
    cases h
    exact .inr (.inl ⟨op, rfl, rfl, rfl⟩)
  | opening =>
    cases h
    exact .inr (.inr (.inl ⟨rfl, rfl, rfl⟩))
  | closing =>
    rw [step] at h
    split at h
    · rename_i released rest heq
      cases h
      exact .inr (.inr (.inr ⟨rest, rfl, heq, rfl⟩))
    · cases h
  | foreign c => cases h

/-- A minus is a sign where no operand has just ended. -/
theorem signPlace_of_step {c : Conversion} (h : step c l = .ok (out, next)) :
    next.signPlace = !l.endsOperand := by
  obtain ⟨held, signPlace⟩ := c
  obtain ⟨_, _, rfl, -, -, rfl⟩ | ⟨_, rfl, -, rfl⟩ | ⟨rfl, -, rfl⟩ | ⟨_, rfl, -, rfl⟩ :=
    step_cases h <;> rfl

/-- A conversion puts out tokens while it reads, and what is held at the end after them. -/
theorem exists_of_toRpn {cs : List Char} {tokens : List Token} (h : toRpn cs = .ok tokens) :
    ∃ out last rest, transduce step .start (lexemes cs) = .ok (out, last) ∧
      finish last.held = .ok rest ∧ tokens = out ++ rest := by
  obtain ⟨⟨out, last⟩, hrun, h⟩ := bind_eq_ok.mp h
  obtain ⟨rest, hfinish, h⟩ := bind_eq_ok.mp h
  cases h
  exact ⟨out, last, rest, hrun, hfinish, rfl⟩

end Reckoner.Conversion
