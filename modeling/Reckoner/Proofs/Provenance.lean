import Reckoner.Rpn.Evaluation.Lemmas
import Reckoner.Session.Lemmas

/-!
# What is shown belongs to one solve

`Session.standing` follows a run from outside and keeps the text of the last solve for as long as
nothing has been done that takes its outcome away. `outcome_after` says that the screen shows the
whole outcome of this text in the mode that is chosen now, or nothing if there is no such text.

Two facts carry this. A solve shows the whole outcome of the entry (`complete_solve`): the reverse
Polish notation made from the entry a second time is the one that was evaluated. And an action
either solves, or takes the outcome away, or leaves it and the mode as they are
(`outcome_act`, `mode_act`).
-/

namespace Reckoner

namespace Session

variable {s : Session}

theorem complete_solve_of_refused {message : String}
    (hreply : s.mode.reply s.entry = .refused message) (hne : message ≠ "") :
    Outcome.Complete s.entry s.mode s.solve.outcome := by
  have hcomplete := Outcome.Complete.refused hreply hne
  rw [hreply] at hcomplete
  rw [solve, hreply]
  exact hcomplete

theorem complete_solve_expression (h : s.mode = .expression) :
    Outcome.Complete s.entry s.mode s.solve.outcome := by
  have hmode : s.mode.reply s.entry = Reply.toExpression s.entry := by rw [h]; rfl
  cases hcalc : calculate s.entry with
  | error fault =>
    refine complete_solve_of_refused ?_ fault.message_ne_empty
    rw [hmode, Reply.toExpression, hcalc]
    rfl
  | ok c =>
    obtain ⟨hconvert, hvalue⟩ := calculate_eq_ok hcalc
    have hreply : Reply.toExpression s.entry =
        .evaluated s.entry (c.steps.map Step.text) c.value := by
      rw [Reply.toExpression, hcalc]
      rfl
    have htokens : c.tokens ≠ [] := by
      intro hnil
      have hgain := gain_of_evaluate hvalue
      rw [hnil] at hgain
      exact absurd hgain (by decide)
    have hcomplete := Outcome.Complete.evaluated hconvert hvalue hreply (plainText_ne_empty c.value)
      (readable_ne_empty htokens)
    -- the line that is shown is made from the entry again, and not from the tokens
    rw [hreply, ← rpnLine_eq hconvert] at hcomplete
    rw [solve, hmode, hreply, h]
    exact hcomplete

theorem complete_solve_equation (h : s.mode = .equation) :
    Outcome.Complete s.entry s.mode s.solve.outcome := by
  have hmode : s.mode.reply s.entry = Reply.toEquation s.entry := by rw [h]; rfl
  cases hx : solveEquation s.entry with
  | error fault =>
    refine complete_solve_of_refused ?_ fault.message_ne_empty
    rw [hmode, Reply.toEquation, hx]
    rfl
  | ok x =>
    have hreply : Reply.toEquation s.entry = .solved s.entry x := by
      rw [Reply.toEquation, hx]
      rfl
    have hcomplete := Outcome.Complete.solved hreply (plainText_ne_empty x)
    rw [hreply] at hcomplete
    rw [solve, hmode, hreply, h]
    exact hcomplete

theorem complete_solve (s : Session) : Outcome.Complete s.entry s.mode s.solve.outcome := by
  cases h : s.mode with
  | expression => exact h ▸ complete_solve_expression h
  | equation => exact h ▸ complete_solve_equation h

end Session

theorem Outcome.Complete.result_eq_empty_iff {text : String} {mode : Mode} {o : Outcome}
    (h : Outcome.Complete text mode o) : o.result = "" ↔ o.error ≠ "" := by
  cases h with
  | evaluated _ _ _ hresult _ => simp [hresult]
  | solved _ hresult => simp [hresult]
  | refused _ hmessage => simp [hmessage]

namespace Action

/-- The entry is solved: by the button, or by the enter key where the entry field takes the
keyboard. -/
def solves (a : Action) (s : Session) : Bool :=
  match a.input with
  | .clicked .solve => true
  | .enter => a.focusFirst || s.wantsFocus
  | _ => false

/-- What is shown is taken away: by one of the two buttons for it, or by the choice of the other
mode. -/
def discards (a : Action) (s : Session) : Bool :=
  match a.input with
  | .clicked .clearOutcome | .clicked .clearAll => true
  | .chosen mode => s.mode ≠ mode
  | _ => false

end Action

namespace Session

theorem outcome_act (a : Action) (s : Session) :
    (s.act a).outcome =
      if a.solves s then s.solve.outcome else if a.discards s then .empty else s.outcome := by
  obtain ⟨focusFirst, i⟩ := a
  rw [act, image_outcome]
  cases i with
  | enter =>
    have hsolve : (solve { s with wantsFocus := focusFirst || s.wantsFocus }).outcome =
        s.solve.outcome := solve_outcome_congr rfl rfl
    simp only [hsolve]
    rfl
  | chosen mode =>
    show (if s.mode = mode then s.outcome else .empty) =
      if decide (s.mode ≠ mode) = true then .empty else s.outcome
    by_cases h : s.mode = mode <;> simp [h]
  | clicked b =>
    cases b with
    | solve => exact solve_outcome_congr rfl rfl
    | _ => rfl
  | _ => rfl

theorem mode_act {a : Action} {s : Session} (h : a.solves s = true ∨ a.discards s = false) :
    (s.act a).mode = s.mode := by
  obtain ⟨focusFirst, i⟩ := a
  rw [act, image_mode]
  cases i with
  | chosen mode =>
    rcases h with h | h
    · cases h
    · exact (Decidable.of_not_not (of_decide_eq_false h)).symm
  | _ => rfl

/-- The text whose outcome stands after some actions, where `shown` is that text before them. -/
def standing (shown : Option String) (s : Session) : List Action → Option String
  | [] => shown
  | a :: actions =>
    (s.act a).standing
      (if a.solves s then some s.entry else if a.discards s then none else shown) actions

/-- The session shows the whole outcome of a text, or nothing. -/
def Shows (shown : Option String) (s : Session) : Prop :=
  match shown with
  | none => s.outcome = .empty
  | some text => Outcome.Complete text s.mode s.outcome

variable {shown : Option String} {s : Session}

theorem Shows.act (h : s.Shows shown) (a : Action) :
    (s.act a).Shows
      (if a.solves s then some s.entry else if a.discards s then none else shown) := by
  have houtcome := outcome_act a s
  by_cases hsolves : a.solves s = true
  · rw [if_pos hsolves] at houtcome ⊢
    rw [Shows, houtcome, mode_act (.inl hsolves)]
    exact s.complete_solve
  rw [if_neg hsolves] at houtcome ⊢
  by_cases hdiscards : a.discards s = true
  · rw [if_pos hdiscards] at houtcome ⊢
    exact houtcome
  · rw [if_neg hdiscards] at houtcome ⊢
    have hmode : (s.act a).mode = s.mode := mode_act (.inr (by simpa using hdiscards))
    cases shown with
    | none => exact houtcome.trans h
    | some text =>
      rw [Shows, houtcome, hmode]
      exact h

theorem Shows.after (h : s.Shows shown) (actions : List Action) :
    (s.after actions).Shows (s.standing shown actions) := by
  induction actions generalizing s shown with
  | nil => exact h
  | cons a actions ih => exact ih (h.act a)

/-- Every session that is recorded shows the whole outcome of one text, or nothing. -/
theorem shows_of_mem_record {actions : List Action} (h : s ∈ start.record actions) :
    ∃ shown, s.Shows shown := by
  obtain ⟨taken, rfl⟩ := eq_after_of_mem_record h
  have hstart : start.Shows none := rfl
  exact ⟨_, hstart.after taken⟩

/-- After every run the screen shows the whole outcome, in the mode chosen now, of the text that was
in the entry at the last solve, and then either a result or an error; or it shows nothing, if there
was no solve or its outcome was taken away. -/
theorem outcome_after (actions : List Action) :
    match launched.standing none actions with
    | none => (launched.after actions).outcome = .empty
    | some text =>
      Outcome.Complete text (launched.after actions).mode (launched.after actions).outcome ∧
        ((launched.after actions).result = "" ↔ (launched.after actions).error ≠ "") := by
  have hstart : launched.Shows none := rfl
  have h := hstart.after actions
  cases hstanding : launched.standing none actions with
  | none =>
    rw [hstanding] at h
    exact h
  | some text =>
    rw [hstanding] at h
    exact ⟨h, Outcome.Complete.result_eq_empty_iff h⟩

end Session

end Reckoner
