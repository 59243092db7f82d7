import Reckoner.Expr
import Reckoner.Rpn.Evaluation.Lemmas
import Reckoner.Rpn.Working

/-!
# What has a value is the listing of a tree

Tokens are evaluated if and only if they are the listing of an expression, and then of one only
(`evaluate_iff_listing`). The expression is found again from the stack: every value on it is the
value of a tree, and the listings of these trees, one after the other, are what was read
(`exists_forest_of_transduce`). There is only one such tree, as no listing ends with the whole of
another one (`tokens_append_inj`).

The working of a tree is what its operators make of its numbers: along a run every number and the
value of every step stays accounted for (`accounted_of_transduce`).
-/

namespace Reckoner

namespace Expr

/-! ### One tree for a listing -/

/-- A listing says where it began: of two that end at the same place none ends with the other. -/
theorem tokens_append_inj {e f : Expr} {before before' : List Token}
    (h : before ++ e.tokens = before' ++ f.tokens) : e = f ∧ before = before' := by
  induction e generalizing f before before' with
  | number v =>
    cases f with
    | number w =>
      obtain ⟨hbefore, hlast⟩ := List.append_inj' h rfl
      cases hlast
      exact ⟨rfl, hbefore⟩
    | neg f | binary op l r => simp [tokens, ← List.append_assoc] at h
  | neg e ih =>
    cases f with
    | neg f =>
      simp only [tokens, ← List.append_assoc] at h
      obtain ⟨rfl, hbefore⟩ := ih (List.append_inj' h rfl).1
      exact ⟨rfl, hbefore⟩
    | number w | binary op l r => simp [tokens, ← List.append_assoc] at h
  | binary op l r ihl ihr =>
    cases f with
    | binary op' l' r' =>
      simp only [tokens, ← List.append_assoc] at h
      obtain ⟨hoperands, hlast⟩ := List.append_inj' h rfl
      cases hlast
      obtain ⟨rfl, hleft⟩ := ihr hoperands
      obtain ⟨rfl, hbefore⟩ := ihl hleft
      exact ⟨rfl, hbefore⟩
    | number w | neg f => simp [tokens, ← List.append_assoc] at h

theorem tokens_injective {e f : Expr} (h : e.tokens = f.tokens) : e = f := by
  have happend : [] ++ e.tokens = [] ++ f.tokens := h
  exact (tokens_append_inj happend).1

/-! ### The trees of a stack -/

/-- The listings of trees one after the other. Like a stack, the list has the latest tree first. -/
def listing : List Expr → List Token
  | [] => []
  | e :: forest => listing forest ++ e.tokens

end Expr

variable {stack : List Float} {steps : List Step}

theorem exists_forest_of_ofToken {forest : List Expr} {t : Token}
    (h : Step.ofToken (forest.map Expr.value) t = .ok (steps, stack)) :
    ∃ forest' : List Expr, stack = forest'.map Expr.value ∧
      Expr.listing forest' = Expr.listing forest ++ [t] := by
  cases t with
  | number v =>
    cases h
    exact ⟨.number v :: forest, rfl, rfl⟩
  | operator op =>
    cases op with
    | neg =>
      cases forest with
      | nil => cases h
      | cons e forest =>
        cases h
        exact ⟨.neg e :: forest, rfl, by simp [Expr.listing, Expr.tokens]⟩
    | binary op =>
      rcases forest with - | ⟨r, - | ⟨l, forest⟩⟩
      · cases h
      · cases h
      · cases h
        exact ⟨.binary op l r :: forest, rfl, by simp [Expr.listing, Expr.tokens]⟩

/-- What has been read is, at any time, the listings of the trees whose values are on the stack. -/
theorem exists_forest_of_transduce {forest : List Expr} {tokens : List Token}
    (h : transduce Step.ofToken (forest.map Expr.value) tokens = .ok (steps, stack)) :
    ∃ forest' : List Expr, stack = forest'.map Expr.value ∧
      Expr.listing forest' = Expr.listing forest ++ tokens := by
  induction tokens generalizing forest steps with
  | nil =>
    cases h
    exact ⟨forest, rfl, (List.append_nil _).symm⟩
  | cons t tokens ih =>
    obtain ⟨first, stack₁, rest, hstep, hrest, -⟩ := transduce_cons_eq_ok.mp h
    obtain ⟨forest₁, rfl, hlisting₁⟩ := exists_forest_of_ofToken hstep
    obtain ⟨forest', hstack, hlisting⟩ := ih hrest
    refine ⟨forest', hstack, ?_⟩
    rw [hlisting, hlisting₁, List.append_assoc]
    rfl

theorem exists_expr_of_evaluate {tokens : List Token} {value : Float}
    (h : evaluate tokens = .ok (value, steps)) : ∃ e : Expr, e.tokens = tokens := by
  have hrun : transduce Step.ofToken (([] : List Expr).map Expr.value) tokens =
      .ok (steps, [value]) := evaluate_eq_ok h
  obtain ⟨forest, hvalues, hlisting⟩ := exists_forest_of_transduce hrun
  match forest with
  | [] | _ :: _ :: _ => cases hvalues
  | [e] => exact ⟨e, hlisting⟩

/-! ### The accounts of a run -/

section Accounts

variable {literals stack' : List Float} {lines : List (Line Float)}

theorem accounted_of_ofToken {t : Token} (h : Accounted literals lines stack)
    (hstep : Step.ofToken stack t = .ok (steps, stack')) :
    Accounted (literals ++ numbers [t]) (lines ++ steps.map Step.line) stack' := by
  obtain ⟨v, rfl, rfl, rfl⟩ | ⟨s, below, rfl, rfl, rfl, rfl⟩ := Step.ofToken_cases hstep
  · rw [List.map_nil, List.append_nil]
    exact h.number v
  · rw [numbers_operator_cons]
    show Accounted (literals ++ []) _ _
    rw [List.append_nil]
    exact h.line

theorem accounted_of_transduce {tokens : List Token} (h : Accounted literals lines stack)
    (hrun : transduce Step.ofToken stack tokens = .ok (steps, stack')) :
    Accounted (literals ++ numbers tokens) (lines ++ steps.map Step.line) stack' := by
  induction tokens generalizing literals lines stack steps with
  | nil =>
    cases hrun
    show Accounted (literals ++ []) (lines ++ []) _
    rwa [List.append_nil, List.append_nil]
  | cons t tokens ih =>
    obtain ⟨first, stack₁, rest, hstep, hrest, rfl⟩ := transduce_cons_eq_ok.mp hrun
    have hall := ih (accounted_of_ofToken h hstep) hrest
    rwa [List.append_assoc, List.append_assoc, ← numbers_append, ← List.map_append] at hall

end Accounts

namespace Expr

/-- The working of an expression as it is written. -/
def lines (e : Expr) : List (Line String) :=
  e.steps.map fun s => s.line.map stepText

theorem map_text_steps (e : Expr) : e.steps.map Step.text = e.lines.map Line.text := by
  rw [lines, List.map_map]
  exact List.map_congr_left fun s _ => s.text_eq

/-- There is one line for each operator, in the order of the listing. -/
theorem map_operator_lines (e : Expr) : e.lines.map Line.operator = operators e.tokens := by
  induction e with
  | number v => rfl
  | neg e ih =>
    simp only [lines, steps, tokens, List.map_append, operators_append] at ih ⊢
    rw [ih]
    rfl
  | binary op l r ihl ihr =>
    simp only [lines, steps, tokens, List.map_append, operators_append] at ihl ihr ⊢
    rw [ihl, ihr]
    rfl

theorem accounted_lines (e : Expr) :
    Accounted ((numbers e.tokens).map stepText) e.lines [stepText e.value] := by
  have hnumbers : Accounted (numbers e.tokens) (e.steps.map Step.line) [e.value] :=
    accounted_of_transduce accounted_nil (e.transduce_tokens [])
  have htexts := hnumbers.map stepText
  rwa [List.map_map] at htexts

theorem result_getLast?_lines (e : Expr) :
    e.lines = [] ∨ e.lines.getLast?.map Line.result = some (stepText e.value) := by
  cases e with
  | number v => exact .inl rfl
  | neg e | binary op l r =>
    right
    rw [lines, steps, List.map_append, List.map_singleton, List.getLast?_concat]
    rfl

end Expr

/-- Tokens are evaluated if and only if they are the listing of an expression, and no other
expression has this listing. The value is then the value of the expression, and the working is that
of its tree, with one line for each operator in the order of the listing. The operands of a line are
the texts of numbers of the expression and the results of earlier lines, each used exactly once.
What no line uses is the text of the value, which is the result of the last line, or the only
number. -/
theorem evaluate_iff_listing (tokens : List Token) :
    ((∃ r, evaluate tokens = .ok r) ↔ ∃! e : Expr, e.tokens = tokens) ∧
      ∀ e : Expr, evaluate e.tokens = .ok (e.value, e.steps) ∧
        e.steps.map Step.text = e.lines.map Line.text ∧
        e.lines.map Line.operator = operators e.tokens ∧
        Accounted ((numbers e.tokens).map stepText) e.lines [stepText e.value] ∧
        (e.lines = [] ∨ e.lines.getLast?.map Line.result = some (stepText e.value)) := by
  refine ⟨⟨?_, ?_⟩, fun e => ⟨e.evaluate_tokens, e.map_text_steps, e.map_operator_lines,
    e.accounted_lines, e.result_getLast?_lines⟩⟩
  · rintro ⟨⟨value, steps⟩, h⟩
    obtain ⟨e, rfl⟩ := exists_expr_of_evaluate h
    exact ⟨e, rfl, fun f hf => Expr.tokens_injective hf⟩
  · rintro ⟨e, rfl, -⟩
    exact ⟨_, e.evaluate_tokens⟩

end Reckoner
