import Reckoner.Session.Draft
import Reckoner.Session.Lemmas

/-!
# Editing and solving do not interfere

After a run the draft is what the edits of the run make of the first draft (`draft_after`), so two
runs with the same edits show the same drafts at them, whatever was solved or taken off the screen
in between (`drafts_eq_of_edits_eq`). The other way round, what keeps the outcome keeps it for as
long as nothing else is done (`outcome_after_of_keepsOutcome`). `noninterference` is both.
-/

namespace Reckoner

namespace Session

variable {s s' : Session} {actions actions' : List Action}

theorem enabled_key_eq_false_iff {mode : Mode} {c : Char} :
    (Button.key c).enabled mode = false ↔ mode = .expression ∧ (c = 'x' ∨ c = '=') := by
  cases mode <;> simp [Button.enabled, Decidable.or_iff_not_imp_left]

theorem draft_act (a : Action) (s : Session) : (s.act a).draft = s.draft.edit a.input := by
  obtain ⟨focusFirst, i⟩ := a
  rw [draft, act, image_mode, image_entry]
  cases i with
  | clicked b =>
    cases b with
    | key c =>
      show Draft.mk s.mode (if (Button.key c).enabled s.mode then s.entry.push c else s.entry) =
        if s.mode = .expression ∧ (c = 'x' ∨ c = '=') then s.draft
        else { s.draft with entry := s.entry.push c }
      cases h : (Button.key c).enabled s.mode with
      | false =>
        rw [if_neg nofun, if_pos (enabled_key_eq_false_iff.mp h)]
        rfl
      | true =>
        have hkey : ¬ (s.mode = .expression ∧ (c = 'x' ∨ c = '=')) := by
          simp [← enabled_key_eq_false_iff, h]
        rw [if_pos rfl, if_neg hkey]
        rfl
    | solve =>
      show Draft.mk s.mode (solve _).entry = s.draft
      rw [solve_entry]
      rfl
    | _ => rfl
  | _ => rfl

theorem draft_act_of_not_edits {a : Action} (h : a.input.edits = false) (s : Session) :
    (s.act a).draft = s.draft := by
  rw [draft_act, Draft.edit_of_not_edits h]

theorem edits_cons (a : Action) (actions : List Action) :
    edits (a :: actions) = if a.input.edits then a.input :: edits actions else edits actions := by
  rw [edits, List.map_cons, List.filter_cons]
  rfl

/-- The drafts after the edits of a run, as they follow from the first draft. -/
theorem draft_after (s : Session) (actions : List Action) :
    (s.after actions).draft = (edits actions).foldl Draft.edit s.draft := by
  induction actions generalizing s with
  | nil => rfl
  | cons a actions ih =>
    show ((s.act a).after actions).draft = _
    rw [ih, edits_cons]
    cases h : a.input.edits with
    | true => rw [if_pos rfl, List.foldl_cons, draft_act]
    | false => rw [if_neg nofun, draft_act_of_not_edits h]

theorem drafts_cons (a : Action) (actions : List Action) (s : Session) :
    s.drafts (a :: actions) =
      if a.input.edits then s.draft.edit a.input :: (s.act a).drafts actions
      else (s.act a).drafts actions := by
  rw [drafts, draft_act]

theorem drafts_eq_scanl (s : Session) (actions : List Action) :
    s.draft :: s.drafts actions = (edits actions).scanl Draft.edit s.draft := by
  induction actions generalizing s with
  | nil => rfl
  | cons a actions ih =>
    rw [drafts_cons, edits_cons]
    cases h : a.input.edits with
    | true => rw [if_pos rfl, if_pos rfl, List.scanl_cons, ← draft_act, ih]
    | false => rw [if_neg nofun, if_neg nofun, ← draft_act_of_not_edits h, ih]

theorem drafts_eq_of_edits_eq (hdraft : s'.draft = s.draft)
    (hedits : edits actions' = edits actions) : s'.drafts actions' = s.drafts actions := by
  have h' := drafts_eq_scanl s' actions'
  rw [hdraft, hedits, ← drafts_eq_scanl s actions] at h'
  exact (List.cons.inj h').2

theorem outcome_act_of_keepsOutcome {a : Action} (h : a.input.keepsOutcome s.mode = true) :
    (s.act a).outcome = s.outcome ∧ (s.act a).mode = s.mode := by
  obtain ⟨focusFirst, i⟩ := a
  rw [act, image_outcome, image_mode]
  cases i with
  | chosen mode =>
    obtain rfl : mode = s.mode := of_decide_eq_true h
    exact ⟨if_pos rfl, rfl⟩
  | enter => cases h
  | clicked b => cases b <;> first | exact ⟨rfl, rfl⟩ | cases h
  | _ => exact ⟨rfl, rfl⟩

theorem outcome_after_of_keepsOutcome (h : ∀ a ∈ actions, a.input.keepsOutcome s.mode = true) :
    (s.after actions).outcome = s.outcome := by
  induction actions generalizing s with
  | nil => rfl
  | cons a actions ih =>
    obtain ⟨houtcome, hmode⟩ := outcome_act_of_keepsOutcome (h a List.mem_cons_self)
    rw [← houtcome]
    refine ih fun a' ha' => ?_
    rw [hmode]
    exact h a' (List.mem_cons_of_mem a ha')

/-- In every run: the draft is what its edits make of the first one, each in its turn; a run with
the same edits, whatever else is put in or left out between them, shows the same drafts at them; and
from any point on, what neither solves nor takes anything off the screen changes nothing of the
outcome, however much of it is done. -/
theorem noninterference (s : Session) (actions : List Action) :
    (s.after actions).draft = (edits actions).foldl Draft.edit s.draft ∧
      (∀ actions', edits actions' = edits actions → s.drafts actions' = s.drafts actions) ∧
      ∀ quiet : List Action,
        (∀ a ∈ quiet, a.input.keepsOutcome (s.after actions).mode = true) →
        ((s.after actions).after quiet).outcome = (s.after actions).outcome :=
  ⟨draft_after s actions, fun _ h => drafts_eq_of_edits_eq rfl h,
    fun _ h => outcome_after_of_keepsOutcome h⟩

/-- The key of the unknown does nothing to `2+` in an expression and is written in an equation. -/
def solvedTwice : List Action :=
  [⟨false, .typed "2+"⟩, ⟨false, .clicked (.key 'x')⟩, ⟨true, .enter⟩, ⟨false, .clicked (.key '1')⟩,
    ⟨false, .clicked .solve⟩, ⟨false, .chosen .equation⟩, ⟨false, .clicked (.key 'x')⟩]

def unsolved : List Action :=
  [⟨false, .typed "2+"⟩, ⟨false, .clicked (.key 'x')⟩, ⟨false, .clicked (.key '1')⟩,
    ⟨false, .clicked .clearOutcome⟩, ⟨false, .chosen .equation⟩, ⟨false, .clicked (.key 'x')⟩]

def keysAndEscape : List Action :=
  [⟨false, .clicked (.key '=')⟩, ⟨false, .chosen .equation⟩, ⟨false, .clicked .delete⟩,
    ⟨false, .escape⟩]

theorem noninterference_solvedTwice :
    (launched.after solvedTwice).draft = ⟨.equation, "2+1x"⟩ ∧
      edits unsolved = edits solvedTwice ∧
      launched.drafts unsolved = launched.drafts solvedTwice ∧
      (∀ a ∈ keysAndEscape, a.input.keepsOutcome .equation = true) ∧
      ((launched.after solvedTwice).after keysAndEscape).outcome =
        (launched.after solvedTwice).outcome := by
  obtain ⟨hdraft, hsame, hkeeps⟩ := noninterference launched solvedTwice
  have hedits : edits unsolved = edits solvedTwice := by decide
  have hmode : (launched.after solvedTwice).mode = .equation := congrArg Draft.mode hdraft
  have hquiet : ∀ a ∈ keysAndEscape, a.input.keepsOutcome .equation = true := by decide
  refine ⟨hdraft.trans (by decide +kernel), hedits, hsame unsolved hedits, hquiet,
    hkeeps keysAndEscape ?_⟩
  rw [hmode]
  exact hquiet

end Session

end Reckoner
