import Reckoner.Proofs.Submission

/-!
# Keys that stand for buttons

The escape key clears the entry before the field is drawn, and the field takes the request for the
keyboard back in the same image; the button clears it after the field, so that the request stands
until the next image (`act_clearEntry`). The quiet image between two actions takes it back, and from
there on the runs are the same. The enter key is tested in between, and where it solves it leaves
what the button leaves (`act_enter_eq_ite`). So a run goes on as if the button had been clicked
(`keys_stand_for_buttons`).
-/

namespace Reckoner

namespace Session

variable (s : Session)

/-! ### One action -/

@[simp]
theorem wantsFocus_showReply (r : Reply) : (s.showReply r).wantsFocus = true := by
  cases r <;> rfl

theorem wantsFocus_solve : s.solve.wantsFocus = true := wantsFocus_showReply s _

/-- What a solve leaves does not depend on what was asked for before it. -/
theorem solve_of_wantsFocus (asked : Bool) : solve { s with wantsFocus := asked } = s.solve := by
  show showReply (s.mode.reply s.entry) { s with wantsFocus := asked } = s.showReply _
  cases s.mode.reply s.entry <;> rfl

theorem setWantsFocus_solve : { s.solve with wantsFocus := true } = s.solve := by
  have hasked := wantsFocus_solve s
  generalize s.solve = shown at hasked
  cases shown
  cases hasked
  rfl

/-- After an image the keyboard is asked for by a button that is in use, and by the enter key where
it was asked for before. -/
theorem wantsFocus_image (i : Input) :
    (s.image i).wantsFocus = true ↔
      (∃ b, i = .clicked b ∧ b.enabled s.mode = true) ∨ i = .enter ∧ s.wantsFocus = true := by
  cases i with
  | clicked b =>
    rw [image_clicked]
    by_cases h : b.enabled s.mode
    · simp [h]
    · simp [h]
  | enter =>
    rw [image_enter]
    by_cases h : s.wantsFocus
    · simp [h, wantsFocus_solve]
    · simp [h]
  | _ => simp [image_none, image_typed, image_chosen, image_escape]

/-- The button leaves what the escape key leaves, and asks for the keyboard. -/
theorem act_clearEntry (focusFirst : Bool) :
    s.act ⟨focusFirst, .clicked .clearEntry⟩ =
      { s.act ⟨focusFirst, .escape⟩ with wantsFocus := true } := rfl

theorem act_solve (focusFirst : Bool) : s.act ⟨focusFirst, .clicked .solve⟩ = s.solve := by
  show { solve { s with wantsFocus := false } with wantsFocus := true } = s.solve
  rw [solve_of_wantsFocus, setWantsFocus_solve]

/-- The enter key solves where the field is asked to take the keyboard, and otherwise it takes the
request back at most. -/
theorem act_enter_eq_ite (focusFirst : Bool) :
    s.act ⟨focusFirst, .enter⟩ =
      if focusFirst || s.wantsFocus then s.act ⟨focusFirst, .clicked .solve⟩ else s := by
  split
  · rw [act_enter, act_solve, if_pos ‹_›, solve_of_wantsFocus]
  · rename_i hasked
    simp only [Bool.or_eq_true, not_or, Bool.not_eq_true] at hasked
    obtain ⟨rfl, hs⟩ := hasked
    exact act_enter_of_unasked hs

theorem settle_of_wantsFocus (asked : Bool) : settle { s with wantsFocus := asked } = s.settle :=
  rfl

/-! ### Runs -/

/-- What is recorded of a run at one of its actions, and from there on. -/
theorem record_cons (before later : List Action) (a : Action) :
    s.record (before ++ a :: later) = s.record before ++
      (s.restedAfter before).act a :: ((s.restedAfter before).act a).settle.record later :=
  record_append s before (a :: later)

/-- In a run, each action of which is followed by a quiet image, from any session on and with
anything done before and later. With the button for clearing the entry in the place of the escape
key the record is the same but for the request for the keyboard at this action. With the button for
solving in the place of the enter key it is the same altogether, if the field is asked to take the
keyboard in this image; if it is not, the enter key changes nothing. The request is seen in a
recorded session exactly where the action was a click on a button in use, or an enter key that
solved. -/
theorem keys_stand_for_buttons (before later : List Action) (focusFirst : Bool) :
    let rested := s.restedAfter before
    let asked := focusFirst || rested.wantsFocus
    (∃ shown rest,
      s.record (before ++ ⟨focusFirst, .escape⟩ :: later) = s.record before ++ shown :: rest ∧
      s.record (before ++ ⟨focusFirst, .clicked .clearEntry⟩ :: later) =
        s.record before ++ { shown with wantsFocus := true } :: rest) ∧
    (asked = true →
      s.record (before ++ ⟨focusFirst, .enter⟩ :: later) =
        s.record (before ++ ⟨focusFirst, .clicked .solve⟩ :: later)) ∧
    (asked = false → rested.act ⟨focusFirst, .enter⟩ = rested) ∧
    ∀ i, ∃ shown rest,
      s.record (before ++ ⟨focusFirst, i⟩ :: later) = s.record before ++ shown :: rest ∧
      (shown.wantsFocus = true ↔
        (∃ b, i = .clicked b ∧ b.enabled rested.mode = true) ∨ i = .enter ∧ asked = true) := by
  intro rested asked
  refine ⟨⟨_, _, record_cons s before later _, ?_⟩, ?_, ?_, ?_⟩
  · rw [record_cons, act_clearEntry, settle_of_wantsFocus]
  · intro h
    have hact : rested.act ⟨focusFirst, .enter⟩ = rested.act ⟨focusFirst, .clicked .solve⟩ := by
      rw [act_enter_eq_ite, if_pos h]
    rw [record_cons, record_cons, hact]
  · intro h
    have hasked : ¬ asked = true := by simp [h]
    rw [act_enter_eq_ite, if_neg hasked]
  · intro i
    exact ⟨_, _, record_cons s before later _, wantsFocus_image _ i⟩

/-- The text `1` is typed with its key. The enter key solves it where it finds the field asked to
take the keyboard, and not where the quiet image took the request back. -/
theorem keys_stand_for_buttons_solvedOne :
    let typed : List Action := [⟨false, .clicked (.key '1')⟩]
    let rested := start.restedAfter typed
    (true || rested.wantsFocus) = true ∧
      start.record (typed ++ [⟨true, .enter⟩]) =
        start.record (typed ++ [⟨true, .clicked .solve⟩]) ∧
      (rested.act ⟨true, .enter⟩).result = "1" ∧
      (false || rested.wantsFocus) = false ∧
      rested.act ⟨false, .enter⟩ = rested := by
  intro typed rested
  have hquiet : (false || rested.wantsFocus) = false := by decide
  have hresult : (rested.act ⟨true, .enter⟩).result = "1" := by decide +kernel
  obtain ⟨-, hsolved, -, -⟩ := keys_stand_for_buttons start typed [] true
  obtain ⟨-, -, hlost, -⟩ := keys_stand_for_buttons start typed [] false
  exact ⟨Bool.true_or _, hsolved (Bool.true_or _), hresult, hquiet, hlost hquiet⟩

end Session

end Reckoner
