import Reckoner.Json.Scanner
import Reckoner.Reply

/-!
# JSON documents

`decode` reads a JSON text as a document: a value, or a list or an object of documents, whose
fields stay in the order of the text. `Reply.ofFields?` reads a reply from the fields of an object
by their keys, in any order; where a key is missing, so is its part of the reply. JSON has no
numbers that are not finite, so three words are read as numbers too.
-/

namespace Reckoner

namespace Json

inductive Document where
  | null
  | flag (value : Bool)
  | number (value : Float)
  | text (value : String)
  | list (items : List Document)
  | object (fields : List (String × Document))

mutual

/-- The document at the front of some pieces, and what follows it. Every call reads a piece or is
followed by one that does, so as many calls as there are pieces are enough. -/
def value? : Nat → List Piece → Option (Document × List Piece)
  | 0, _ => none
  | fuel + 1, ps =>
    match ps with
    | .null :: rest => some (.null, rest)
    | .flag b :: rest => some (.flag b, rest)
    | .number x :: rest => some (.number x, rest)
    | .text s :: rest => some (.text s, rest)
    | .mark '[' :: .mark ']' :: rest => some (.list [], rest)
    | .mark '[' :: rest => (items? fuel rest).map fun (items, rest) => (.list items, rest)
    | .mark '\x7b' :: .mark '\x7d' :: rest => some (.object [], rest)
    | .mark '\x7b' :: rest => (fields? fuel rest).map fun (fields, rest) => (.object fields, rest)
    | _ => none

/-- The items up to the end of a list. -/
def items? : Nat → List Piece → Option (List Document × List Piece)
  | 0, _ => none
  | fuel + 1, ps =>
    match value? fuel ps with
    | some (item, .mark ']' :: rest) => some ([item], rest)
    | some (item, .mark ',' :: rest) =>
      (items? fuel rest).map fun (items, rest) => (item :: items, rest)
    | _ => none

/-- The fields up to the end of an object. -/
def fields? : Nat → List Piece → Option (List (String × Document) × List Piece)
  | fuel + 1, .text key :: .mark ':' :: ps =>
    match value? fuel ps with
    | some (value, .mark '\x7d' :: rest) => some ([(key, value)], rest)
    | some (value, .mark ',' :: rest) =>
      (fields? fuel rest).map fun (fields, rest) => ((key, value) :: fields, rest)
    | _ => none
  | _, _ => none

end

/-- The document that all of the pieces make. -/
def parse? (ps : List Piece) : Option Document :=
  match value? ps.length ps with
  | some (d, []) => some d
  | _ => none

def decode (text : String) : Option Document :=
  (scan text.toList).bind parse?

namespace Document

def flag? : Document → Option Bool
  | flag value => some value
  | _ => none

def number? : Document → Option Float
  | number value => some value
  | text "Infinity" => some Binary64.infinity
  | text "-Infinity" => some (-Binary64.infinity)
  | text "NaN" => some Binary64.notANumber
  | _ => none

def text? : Document → Option String
  | text value => some value
  | _ => none

def texts? : Document → Option (List String)
  | list items => items.mapM text?
  | _ => none

end Document

/-- What stands at a key, read as it should be: `none` is a fault and `some none` a missing key. -/
def field? {α : Type} (read : Document → Option α) (key : String)
    (fields : List (String × Document)) : Option (Option α) :=
  match fields.lookup key with
  | some d => (read d).map some
  | none => some none

end Json

namespace Reply

/-- The parts of a reply, each of which may be missing but the first. -/
structure Parts where
  ok : Bool
  expression : Option String
  steps : Option (List String)
  result : Option Float
  equation : Option String
  x : Option Float
  error : Option String
  deriving DecidableEq, Repr

namespace Parts

open Json Document in
def ofFields? (fields : List (String × Document)) : Option Parts := do
  return {
    ok := ← (← field? flag? "ok" fields)
    expression := ← field? text? "expression" fields
    steps := ← field? texts? "steps" fields
    result := ← field? number? "result" fields
    equation := ← field? text? "equation" fields
    x := ← field? number? "x" fields
    error := ← field? text? "error" fields }

/-- The reply that has these parts and no others. -/
def reply? : Parts → Option Reply
  | ⟨true, some expression, some steps, some result, none, none, none⟩ =>
    some (evaluated expression steps result)
  | ⟨true, none, none, none, some equation, some x, none⟩ => some (solved equation x)
  | ⟨false, none, none, none, none, none, some message⟩ => some (refused message)
  | _ => none

end Parts

def ofFields? (fields : List (String × Json.Document)) : Option Reply :=
  (Parts.ofFields? fields).bind Parts.reply?

end Reply

end Reckoner
