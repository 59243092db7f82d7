import Reckoner.Session.Draft
import Reckoner.Session.Lemmas

/-!
# When the enter key solves

The entry field keeps the keyboard between images, but the enter key solves only in an image that
begins with `wantsFocus` set (`act_enter`). A click on a button sets it, and the next image, in
which nothing is done, takes it back (`wantsFocus_settle`). So the enter key that follows a click is
lost: `enter_after_click` says what it leaves, and when this is what the button would have left.
-/

namespace Reckoner

namespace Session

/-- The session at rest after some actions, each of them followed by a quiet image. -/
def restedAfter (s : Session) (actions : List Action) : Session :=
  actions.foldl (fun s a => (s.act a).settle) s

/-- Two sessions differ in the keyboard at most. -/
def Alike (s s' : Session) : Prop :=
  s.draft = s'.draft ∧ s.outcome = s'.outcome

variable {s s' : Session}

theorem restedAfter_concat (s : Session) (actions : List Action) (a : Action) :
    s.restedAfter (actions ++ [a]) = ((s.restedAfter actions).act a).settle := by
  rw [restedAfter, List.foldl_append]
  rfl

/-- A record goes on from the session at rest. -/
theorem record_append (s : Session) (before later : List Action) :
    s.record (before ++ later) = s.record before ++ (s.restedAfter before).record later := by
  induction before generalizing s with
  | nil => rfl
  | cons a before ih =>
    show s.act a :: (s.act a).settle.record (before ++ later) = _
    rw [ih]
    rfl

/-- The session that is recorded for the last action of a run. -/
theorem record_concat (s : Session) (actions : List Action) (a : Action) :
    s.record (actions ++ [a]) = s.record actions ++ [(s.restedAfter actions).act a] :=
  record_append s actions [a]

theorem wantsFocus_settle (s : Session) : s.settle.wantsFocus = false := rfl

theorem wantsFocus_act_clicked {b : Button} (h : b.enabled s.mode = true) (focusFirst : Bool) :
    (s.act ⟨focusFirst, .clicked b⟩).wantsFocus = true := by
  rw [act, image_clicked, if_pos h]

theorem act_enter (s : Session) (focusFirst : Bool) :
    s.act ⟨focusFirst, .enter⟩ =
      if focusFirst || s.wantsFocus then
        solve { s with wantsFocus := focusFirst || s.wantsFocus }
      else { s with wantsFocus := focusFirst || s.wantsFocus } :=
  image_enter _

/-- A field that was not asked to take the keyboard loses the key. -/
theorem act_enter_of_unasked (h : s.wantsFocus = false) : s.act ⟨false, .enter⟩ = s := by
  rw [act_enter, h, Bool.or_false, if_neg nofun, ← h]

theorem act_solve_alike (s : Session) :
    (s.act ⟨false, .clicked .solve⟩).draft = s.draft ∧
      (s.act ⟨false, .clicked .solve⟩).outcome = s.solve.outcome := by
  refine ⟨?_, ?_⟩
  · rw [draft, act, image_mode, image_entry]
    show Draft.mk s.mode (solve _).entry = s.draft
    rw [solve_entry]
    rfl
  · rw [act, image_outcome]
    exact solve_outcome_congr rfl rfl

theorem alike_act_solve_iff (h : s'.draft = s.draft) :
    s'.Alike (s.act ⟨false, .clicked .solve⟩) ↔ s'.outcome = s.solve.outcome := by
  obtain ⟨hdraft, houtcome⟩ := act_solve_alike s
  rw [Alike, hdraft, houtcome]
  exact and_iff_right h

/-- A field that was asked to takes the key, and solves as the button does. -/
theorem act_enter_of_asked (h : s.wantsFocus = true) :
    (s.act ⟨false, .enter⟩).Alike (s.act ⟨false, .clicked .solve⟩) := by
  rw [act_enter, h, Bool.or_true, if_pos rfl, ← h]
  have hdraft : s.solve.draft = s.draft := by rw [draft, solve_mode, solve_entry, draft]
  exact (alike_act_solve_iff hdraft).mpr rfl

/-- After a click on a button that is in use: the field is to take the keyboard, and in the image
right after the click the enter key solves as the button does. Once that image has gone by with
nothing done in it, the enter key changes nothing at all, so that it leaves what the button leaves
only where the outcome of the entry is shown already. -/
theorem enter_after_click (actions : List Action) (focusFirst : Bool) {b : Button}
    (h : b.enabled (start.restedAfter actions).mode = true) :
    let clicked := (start.restedAfter actions).act ⟨focusFirst, .clicked b⟩
    let rested := start.restedAfter (actions ++ [⟨focusFirst, .clicked b⟩])
    clicked.wantsFocus = true ∧
      (clicked.act ⟨false, .enter⟩).Alike (clicked.act ⟨false, .clicked .solve⟩) ∧
      rested.act ⟨false, .enter⟩ = rested ∧
      ((rested.act ⟨false, .enter⟩).Alike (rested.act ⟨false, .clicked .solve⟩) ↔
        rested.outcome = rested.solve.outcome) := by
  intro clicked rested
  have hasked : clicked.wantsFocus = true := wantsFocus_act_clicked h focusFirst
  have hrested : rested = clicked.settle := restedAfter_concat ..
  have hlost : rested.act ⟨false, .enter⟩ = rested :=
    act_enter_of_unasked (hrested ▸ wantsFocus_settle clicked)
  refine ⟨hasked, act_enter_of_asked hasked, hlost, ?_⟩
  rw [hlost]
  exact alike_act_solve_iff rfl

/-- The text `1` is typed with its key and solved with the button; the enter key after the button
leaves the same as the button a second time. -/
theorem enter_after_click_solved :
    Button.solve.enabled (start.restedAfter [⟨false, .clicked (.key '1')⟩]).mode = true ∧
      let rested := start.restedAfter [⟨false, .clicked (.key '1')⟩, ⟨false, .clicked .solve⟩]
      rested.result = "1" ∧ rested.act ⟨false, .enter⟩ = rested ∧
        (rested.act ⟨false, .enter⟩).Alike (rested.act ⟨false, .clicked .solve⟩) := by
  have henabled : Button.solve.enabled
      (start.restedAfter [⟨false, .clicked (.key '1')⟩]).mode = true := by decide +kernel
  obtain ⟨-, -, hlost, halike⟩ :=
    enter_after_click [⟨false, .clicked (.key '1')⟩] false henabled
  exact ⟨henabled, by decide +kernel, hlost, halike.mpr (by decide +kernel)⟩

/-- Where the entry was not solved yet, the enter key after the click on its key does not solve
it. -/
theorem unsubmitted_one :
    let typed := start.restedAfter [⟨false, .clicked (.key '1')⟩]
    (start.record [⟨false, .clicked (.key '1')⟩, ⟨false, .enter⟩]).getLast? =
        some (typed.act ⟨false, .enter⟩) ∧
      (typed.act ⟨false, .enter⟩).outcome = .empty ∧
      (typed.act ⟨false, .clicked .solve⟩).outcome.result = "1" ∧
      ¬ (typed.act ⟨false, .enter⟩).Alike (typed.act ⟨false, .clicked .solve⟩) := by
  intro typed
  have hlast := record_concat start [⟨false, .clicked (.key '1')⟩] ⟨false, .enter⟩
  have hempty : (typed.act ⟨false, .enter⟩).outcome = .empty := by decide +kernel
  have hresult : (typed.act ⟨false, .clicked .solve⟩).outcome.result = "1" := by decide +kernel
  refine ⟨?_, hempty, hresult, fun halike => ?_⟩
  · rw [show [_, _] = [_] ++ [_] from rfl, hlast, List.getLast?_concat]
  · rw [← halike.2, hempty] at hresult
    exact absurd hresult (by decide)

end Session

end Reckoner
