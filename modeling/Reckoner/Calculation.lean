import Reckoner.Rpn.Conversion
import Reckoner.Rpn.Evaluation
import Reckoner.Text.Blank

/-!
# Calculations

The whole way from the text of an expression to its value: blanks are taken out, the rest is
converted to reverse Polish notation, and that is evaluated. The first stage that finds a fault
ends the calculation.
-/

namespace Reckoner

structure Calculation where
  tokens : List Token
  /-- The working, in the order of evaluation. -/
  steps : List Step
  value : Float

def calculate (text : String) : Except Fault Calculation := do
  let cs ← normalise text.toList
  let tokens ← toRpn cs
  let (value, steps) ← evaluate tokens
  return ⟨tokens, steps, value⟩

/-- An expression in reverse Polish notation; nothing if the text cannot be converted. -/
def rpnLine (text : String) : String :=
  match normalise text.toList >>= toRpn with
  | .ok tokens => readable tokens
  | .error _ => ""

theorem calculate_eq_ok {text : String} {c : Calculation} (h : calculate text = .ok c) :
    (normalise text.toList >>= toRpn) = .ok c.tokens ∧
      evaluate c.tokens = .ok (c.value, c.steps) := by
  obtain ⟨cs, hnormal, h⟩ := bind_eq_ok.mp h
  obtain ⟨tokens, htokens, h⟩ := bind_eq_ok.mp h
  obtain ⟨⟨value, steps⟩, hvalue, h⟩ := bind_eq_ok.mp h
  cases h
  exact ⟨bind_eq_ok.mpr ⟨cs, hnormal, htokens⟩, hvalue⟩

theorem rpnLine_eq {text : String} {tokens : List Token}
    (h : (normalise text.toList >>= toRpn) = .ok tokens) : rpnLine text = readable tokens := by
  rw [rpnLine, h]

end Reckoner
