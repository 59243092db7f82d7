import Reckoner.Session.Basic

/-!
# What an image changes

Each part of a session after an image, said by the input. Only a choice changes the mode; the entry
is changed by what is typed, by the escape key and by buttons that edit it; the outcome by a solve,
by the buttons that take it away and by the choice of another mode.
-/

namespace Reckoner.Session

variable (s : Session)

theorem setMode_of_eq {mode : Mode} (h : s.mode = mode) : s.setMode mode = s :=
  if_pos h

theorem setMode_of_ne {mode : Mode} (h : s.mode ≠ mode) :
    s.setMode mode = clearOutcome { s with mode } :=
  if_neg h

@[simp]
theorem showReply_mode (r : Reply) : (s.showReply r).mode = s.mode := by
  cases r <;> rfl

@[simp]
theorem showReply_entry (r : Reply) : (s.showReply r).entry = s.entry := by
  cases r <;> rfl

theorem solve_mode : s.solve.mode = s.mode := showReply_mode s _

theorem solve_entry : s.solve.entry = s.entry := showReply_entry s _

@[simp]
theorem press_mode (b : Button) : (s.press b).mode = s.mode := by
  cases b with
  | solve => exact solve_mode s
  | _ => rfl

theorem image_none : s.image .none = { s with wantsFocus := false } := rfl

theorem image_typed (text : String) :
    s.image (.typed text) = { s with entry := text, wantsFocus := false } := rfl

theorem image_escape : s.image .escape = { s with entry := "", wantsFocus := false } := rfl

theorem image_enter : s.image .enter = if s.wantsFocus then s.solve else s := rfl

theorem image_chosen (mode : Mode) :
    s.image (.chosen mode) = { s.setMode mode with wantsFocus := false } := rfl

theorem image_clicked (b : Button) :
    s.image (.clicked b) =
      if b.enabled s.mode then
        { press b { s with wantsFocus := false } with wantsFocus := true }
      else { s with wantsFocus := false } := rfl

theorem image_mode (i : Input) :
    (s.image i).mode = match i with
      | .chosen mode => mode
      | _ => s.mode := by
  cases i with
  | chosen mode =>
    rw [image_chosen]
    by_cases h : s.mode = mode
    · rw [setMode_of_eq s h, h]
    · rw [setMode_of_ne s h]
      rfl
  | enter =>
    rw [image_enter]
    split
    · exact solve_mode s
    · rfl
  | clicked b =>
    rw [image_clicked]
    split
    · exact press_mode _ b
    · rfl
  | _ => rfl

theorem image_entry (i : Input) :
    (s.image i).entry = match i with
      | .typed text => text
      | .escape => ""
      | .clicked b => if b.enabled s.mode then (s.press b).entry else s.entry
      | _ => s.entry := by
  cases i with
  | chosen mode =>
    rw [image_chosen]
    by_cases h : s.mode = mode
    · rw [setMode_of_eq s h]
    · rw [setMode_of_ne s h]
      rfl
  | enter =>
    rw [image_enter]
    split
    · exact solve_entry s
    · rfl
  | clicked b =>
    show _ = if b.enabled s.mode then (s.press b).entry else s.entry
    rw [image_clicked]
    split
    · cases b with
      | solve =>
        show (solve _).entry = s.solve.entry
        rw [solve_entry, solve_entry]
      | _ => rfl
    · rfl
  | _ => rfl

theorem showReply_outcome_congr {s s' : Session} (r : Reply) (h : s'.entry = s.entry) :
    (s'.showReply r).outcome = (s.showReply r).outcome := by
  cases r with
  | evaluated expression steps value =>
    show Outcome.mk _ _ (rpnLine s'.entry) _ _ = Outcome.mk _ _ (rpnLine s.entry) _ _
    rw [h]
    rfl
  | solved | refused => rfl

/-- The outcome of a solve depends on the mode and the entry alone. -/
theorem solve_outcome_congr {s s' : Session} (hmode : s'.mode = s.mode)
    (hentry : s'.entry = s.entry) : s'.solve.outcome = s.solve.outcome := by
  rw [solve, hmode, hentry]
  exact showReply_outcome_congr _ hentry

theorem image_outcome (i : Input) :
    (s.image i).outcome = match i with
      | .enter => if s.wantsFocus then s.solve.outcome else s.outcome
      | .chosen mode => if s.mode = mode then s.outcome else .empty
      | .clicked .solve => s.solve.outcome
      | .clicked .clearOutcome | .clicked .clearAll => .empty
      | _ => s.outcome := by
  cases i with
  | chosen mode =>
    show _ = if s.mode = mode then s.outcome else .empty
    rw [image_chosen]
    by_cases h : s.mode = mode
    · rw [setMode_of_eq s h, if_pos h]
      rfl
    · rw [setMode_of_ne s h, if_neg h]
      rfl
  | enter =>
    show _ = if s.wantsFocus then s.solve.outcome else s.outcome
    rw [image_enter]
    split <;> rfl
  | clicked b =>
    rw [image_clicked]
    cases b with
    | key c =>
      show _ = s.outcome
      split <;> rfl
    | solve => exact solve_outcome_congr rfl rfl
    | _ => rfl
  | _ => rfl

theorem settle_eq_act : s.settle = s.act ⟨false, .none⟩ := by
  unfold settle act
  rw [Bool.false_or]

/-- The quiet images between recorded ones are actions too, in which nothing is done. -/
theorem eq_after_of_mem_record {s s' : Session} {actions : List Action}
    (h : s' ∈ s.record actions) : ∃ taken, s' = s.after taken := by
  induction actions generalizing s with
  | nil => cases h
  | cons a actions ih =>
    rcases List.mem_cons.mp h with rfl | h
    · exact ⟨[a], rfl⟩
    · obtain ⟨taken, rfl⟩ := ih h
      refine ⟨a :: ⟨false, .none⟩ :: taken, ?_⟩
      rw [settle_eq_act]
      rfl

end Reckoner.Session
