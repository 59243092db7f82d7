import Reckoner.Session.Basic

/-!
# Drafts

A `Draft` is what is being written: the mode and the entry. `Draft.edit` says what each input makes
of it, with nothing about images, the keyboard or what is shown. Two kinds of inputs stay out of
each other's way: those that edit the draft (`Input.edits`), and those that leave the outcome on the
screen (`Input.keepsOutcome`).
-/

namespace Reckoner

structure Draft where
  mode : Mode
  entry : String
  deriving DecidableEq, Repr

/-- A solve and the button for what is shown edit nothing, and neither does an image in which
nothing is done. -/
def Input.edits : Input → Bool
  | none | enter | clicked .solve | clicked .clearOutcome => false
  | _ => true

/-- Inputs that neither solve nor take anything off the screen, in this mode. -/
def Input.keepsOutcome (mode : Mode) : Input → Bool
  | none | typed _ | escape | clicked .clearEntry | clicked .delete | clicked (.key _) => true
  | chosen mode' => mode' = mode
  | enter | clicked .solve | clicked .clearOutcome | clicked .clearAll => false

namespace Draft

def edit (d : Draft) : Input → Draft
  | .typed text => { d with entry := text }
  | .clicked (.key c) =>
    if d.mode = .expression ∧ (c = 'x' ∨ c = '=') then d else { d with entry := d.entry.push c }
  | .clicked .delete => { d with entry := String.ofList d.entry.toList.dropLast }
  | .clicked .clearEntry | .clicked .clearAll | .escape => { d with entry := "" }
  | .chosen mode => { d with mode }
  | .none | .enter | .clicked .solve | .clicked .clearOutcome => d

theorem edit_of_not_edits {i : Input} (h : i.edits = false) (d : Draft) : d.edit i = d := by
  unfold Input.edits at h
  split at h <;> first | rfl | cases h

end Draft

namespace Session

def draft (s : Session) : Draft := ⟨s.mode, s.entry⟩

/-- The drafts that are seen after those actions of a run that edit. -/
def drafts (s : Session) : List Action → List Draft
  | [] => []
  | a :: actions =>
    if a.input.edits then (s.act a).draft :: (s.act a).drafts actions
    else (s.act a).drafts actions

end Session

/-- The inputs of a run that edit. -/
def edits (actions : List Action) : List Input :=
  (actions.map Action.input).filter Input.edits

end Reckoner
