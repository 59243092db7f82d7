import Reckoner.Session.Outcome

/-!
# The calculator in use

A `Session` is all that the calculator keeps between two images on the screen: the mode, the text
in its entry field, and what is shown of the last solve. In every image at most one thing is done to
it, an `Input`, and `Session.image` takes it through the parts of the screen in the order in which
they are drawn: the escape key, the choice of the mode, the entry field, the buttons.

The entry field takes the keyboard in an image that begins with `wantsFocus` set, and the enter key
solves in such an image only. A click on a button sets `wantsFocus` for the image after it.
-/

namespace Reckoner

structure Session where
  mode : Mode := .expression
  entry : String := ""
  result : String := ""
  error : String := ""
  working : Working := {}
  /-- The entry field takes the keyboard in the next image. -/
  wantsFocus : Bool := false
  deriving DecidableEq, Repr

/-- The characters that have a key on the screen. -/
def padKeys : List Char :=
  "()+-*/^x=7894561230.".toList

inductive Button where
  | clearEntry
  | clearOutcome
  | clearAll
  | delete
  | solve
  | key (c : Char)
  deriving DecidableEq, Repr

namespace Button

def label : Button → String
  | clearEntry => "C"
  | clearOutcome => "CLR"
  | clearAll => "AC"
  | delete => "DEL"
  | solve => "Résoudre"
  | key c => c.toString

def all : List Button :=
  [clearEntry, clearOutcome, clearAll, delete, solve] ++ padKeys.map key

def ofLabel? (s : String) : Option Button :=
  all.find? (·.label = s)

/-- The keys of the unknown and of the equals sign work for equations only. -/
def enabled (mode : Mode) : Button → Bool
  | key c => mode = .equation || (c ≠ 'x' && c ≠ '=')
  | _ => true

end Button

/-- What is done in an image. -/
inductive Input where
  | none
  /-- Another text is put into the entry field. -/
  | typed (text : String)
  | clicked (button : Button)
  | chosen (mode : Mode)
  | enter
  | escape
  deriving DecidableEq, Repr

/-- Only a button can be out of use. -/
def Input.enabled (mode : Mode) : Input → Bool
  | clicked button => button.enabled mode
  | _ => true

namespace Session

/-- A calculator that was just opened: the entry field is to take the keyboard at once. -/
def launched : Session := { wantsFocus := true }

def outcome (s : Session) : Outcome where
  result := s.result
  error := s.error
  rpn := s.working.rpn
  steps := s.working.steps
  json := s.working.json

def clearEntry (s : Session) : Session :=
  { s with entry := "", wantsFocus := true }

def clearOutcome (s : Session) : Session :=
  { s with result := "", error := "", working := {}, wantsFocus := true }

/-- Another mode has no use for the outcome. -/
def setMode (mode : Mode) (s : Session) : Session :=
  if s.mode = mode then s else clearOutcome { s with mode }

def showResult (result : String) (working : Working) (s : Session) : Session :=
  { s with error := "", result, working, wantsFocus := true }

/-- Puts an error in the place of what was shown, with the reply for all working. -/
def showError (message json : String) (s : Session) : Session :=
  { s with error := message, result := "", working := { json }, wantsFocus := true }

/-- Shows a reply to the entry. The reverse Polish notation is no part of a reply, and is made once
more from the entry. -/
def showReply (reply : Reply) (s : Session) : Session :=
  match reply with
  | .evaluated _ steps value =>
    s.showResult (plainText value) { rpn := rpnLine s.entry, steps, json := reply.pretty }
  | .solved _ x => s.showResult (plainText x) { json := reply.pretty }
  | .refused message => s.showError message reply.pretty

def solve (s : Session) : Session :=
  s.showReply (s.mode.reply s.entry)

def append (c : Char) (s : Session) : Session :=
  { s with entry := s.entry.push c }

def delete (s : Session) : Session :=
  { s with entry := String.ofList s.entry.toList.dropLast }

/-- What a button does, apart from asking for the keyboard. -/
def press : Button → Session → Session
  | .clearEntry, s => s.clearEntry
  | .clearOutcome, s => s.clearOutcome
  | .clearAll, s => s.clearEntry.clearOutcome
  | .delete, s => s.delete
  | .solve, s => s.solve
  | .key c, s => s.append c

def drawEscape : Input → Session → Session
  | .escape, s => s.clearEntry
  | _, s => s

def drawModes : Input → Session → Session
  | .chosen mode, s => s.setMode mode
  | _, s => s

/-- The entry field takes the keyboard if it is asked to, and only then the enter key solves: a
field that had the keyboard before loses it to this key. -/
def drawEntry : Input → Session → Session
  | .typed text, s => { s with entry := text, wantsFocus := false }
  | .enter, s => if s.wantsFocus then s.solve else s
  | _, s => { s with wantsFocus := false }

def drawButtons : Input → Session → Session
  | .clicked button, s =>
    if button.enabled s.mode then { s.press button with wantsFocus := true } else s
  | _, s => s

def image (input : Input) (s : Session) : Session :=
  s |> drawEscape input |> drawModes input |> drawEntry input |> drawButtons input

end Session

/-- An input, before which the entry field may be asked to take the keyboard. -/
structure Action where
  focusFirst : Bool
  input : Input
  deriving DecidableEq, Repr

namespace Session

def act (a : Action) (s : Session) : Session :=
  ({ s with wantsFocus := a.focusFirst || s.wantsFocus } : Session).image a.input

def settle (s : Session) : Session :=
  s.image .none

def start : Session := launched.settle

/-- The sessions after the images of some actions, with a quiet image after each of them. -/
def record (s : Session) : List Action → List Session
  | [] => []
  | a :: actions => s.act a :: (s.act a).settle.record actions

/-- The session after some actions, with nothing between their images. -/
def after (s : Session) (actions : List Action) : Session :=
  actions.foldl (fun s a => s.act a) s

end Session

end Reckoner
