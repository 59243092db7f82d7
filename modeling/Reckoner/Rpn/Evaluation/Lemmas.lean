import Reckoner.Rpn.Evaluation

/-!
# The height of the stack of values

What a token does to the height of the stack depends on the token alone (`Token.gain`), so the
height after a list of tokens is known without its values, and tokens that have a value, which is all that
they leave on the stack (`evaluate_eq_ok`), gain one in all.
-/

namespace Reckoner

/-- What a token adds to the height of the stack. -/
def Token.gain : Token → Int
  | number _ => 1
  | operator .neg => 0
  | operator (.binary _) => -1

/-- What a list of tokens adds to the height of the stack. -/
def gain : List Token → Int
  | [] => 0
  | t :: tokens => t.gain + gain tokens

@[simp]
theorem gain_nil : gain [] = 0 := rfl

@[simp]
theorem gain_cons (t : Token) (tokens : List Token) : gain (t :: tokens) = t.gain + gain tokens :=
  rfl

@[simp]
theorem gain_append (ts us : List Token) : gain (ts ++ us) = gain ts + gain us := by
  induction ts with
  | nil => simp
  | cons t ts ih =>
    rw [List.cons_append, gain_cons, gain_cons, ih]
    omega

variable {stack stack' : List Float} {steps : List Step}

theorem length_of_ofToken {t : Token} (h : Step.ofToken stack t = .ok (steps, stack')) :
    (stack'.length : Int) = stack.length + t.gain := by
  unfold Step.ofToken at h
  split at h
  · cases h
    simp [Token.gain]
  · cases h
    simp [Token.gain]
  · cases h
    simp only [Token.gain, List.length_cons]
    omega
  · cases h

theorem length_of_transduce {tokens : List Token}
    (h : transduce Step.ofToken stack tokens = .ok (steps, stack')) :
    (stack'.length : Int) = stack.length + gain tokens := by
  induction tokens generalizing stack steps with
  | nil =>
    cases h
    simp
  | cons t tokens ih =>
    obtain ⟨_, stack₁, rest, hstep, hrest, -⟩ := transduce_cons_eq_ok.mp h
    rw [ih hrest, length_of_ofToken hstep, gain_cons]
    omega

/-- Tokens that have a value leave it, and nothing else, on the stack. -/
theorem evaluate_eq_ok {tokens : List Token} {value : Float}
    (h : evaluate tokens = .ok (value, steps)) :
    transduce Step.ofToken [] tokens = .ok (steps, [value]) := by
  obtain ⟨⟨steps', stack⟩, hrun, h⟩ := bind_eq_ok.mp h
  match stack with
  | [] | _ :: _ :: _ => cases h
  | [v] =>
    cases h
    exact hrun

theorem gain_of_evaluate {tokens : List Token} {r : Float × List Step}
    (h : evaluate tokens = .ok r) : gain tokens = 1 := by
  have hlength := length_of_transduce (evaluate_eq_ok h)
  simp only [List.length_cons, List.length_nil] at hlength
  omega

end Reckoner
