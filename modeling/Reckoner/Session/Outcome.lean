import Reckoner.Json

/-!
# What is shown after a solve

An `Outcome` is all that the screen shows of a text that was solved. It is empty before the first
solve. After one, either the result or the error is there; the reply in JSON always is, and the
working only with a result. `Complete` says for each of the two modes which outcome belongs to a
text.
-/

namespace Reckoner

inductive Mode where
  | expression
  | equation
  deriving DecidableEq, Repr

namespace Mode

def label : Mode → String
  | expression => "Expression"
  | equation => "Équation"

def reply : Mode → String → Reply
  | expression => .toExpression
  | equation => .toEquation

end Mode

/-- What is shown beside the result. -/
structure Working where
  rpn : String := ""
  steps : List String := []
  json : String := ""
  deriving DecidableEq, Repr

structure Outcome where
  result : String := ""
  error : String := ""
  rpn : String := ""
  steps : List String := []
  json : String := ""
  deriving DecidableEq, Repr

namespace Outcome

def empty : Outcome := {}

/-- The whole outcome of a text in a mode. The reverse Polish notation is that of the tokens from
which the value comes. -/
inductive Complete (text : String) : Mode → Outcome → Prop where
  | evaluated {tokens : List Token} {steps : List Step} {value : Float}
      (converted : (normalise text.toList >>= toRpn) = .ok tokens)
      (evaluated : evaluate tokens = .ok (value, steps))
      (reply : Reply.toExpression text = .evaluated text (steps.map Step.text) value)
      (result_ne : plainText value ≠ "") (rpn_ne : readable tokens ≠ "") :
      Complete text .expression
        { result := plainText value, error := "", rpn := readable tokens,
          steps := steps.map Step.text, json := (Reply.toExpression text).pretty }
  | solved {x : Float} (reply : Reply.toEquation text = .solved text x)
      (result_ne : plainText x ≠ "") :
      Complete text .equation
        { result := plainText x, error := "", rpn := "", steps := [],
          json := (Reply.toEquation text).pretty }
  | refused {mode : Mode} {message : String} (reply : mode.reply text = .refused message)
      (message_ne : message ≠ "") :
      Complete text mode
        { result := "", error := message, rpn := "", steps := [],
          json := (mode.reply text).pretty }

end Outcome

end Reckoner
