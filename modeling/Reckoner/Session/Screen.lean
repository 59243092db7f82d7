import Reckoner.Session.Basic

/-!
# The screen

The texts that an image shows, from top to bottom. Those that are empty are not there to be seen
and are left out.
-/

namespace Reckoner

/-- The steps of the working, numbered from one, a line each. -/
def numbered (steps : List String) : String :=
  String.intercalate "\n" (steps.mapIdx fun i step => toString (i + 1) ++ ". " ++ step)

/-- The title over the result. -/
def Mode.resultTitle : Mode → String
  | .expression => "Résultat :"
  | .equation => "x ="

/-- The texts on the screen. Only an expression has a reverse Polish notation. -/
def Session.screen (s : Session) : List String :=
  let rpn := match s.mode with
    | .expression => ["RPN :", s.working.rpn]
    | .equation => []
  (["Solveur de notes", "Mode :", "Entrée :", s.error, s.mode.resultTitle, s.result] ++ rpn ++
    ["Étapes :", numbered s.working.steps, "Réponse :", s.working.json]).filter (· ≠ "")

end Reckoner
