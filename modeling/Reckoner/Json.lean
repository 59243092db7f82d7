import Reckoner.Reply

/-!
# Replies in JSON

A reply is one JSON object, and its fields say which kind of reply it is. JSON has no infinities,
so a number that is not finite is written as a word in quotes. Strings are written with the
shortest escapes for quotes, backslashes and control characters; all other characters stand for
themselves.

`Reply.pretty` writes one field or list item a line, indented by two spaces a level.
-/

namespace Reckoner

namespace Json

def escape (c : Char) : List Char :=
  match c with
  | '"' => ['\\', '"']
  | '\\' => ['\\', '\\']
  | '\x08' => ['\\', 'b']
  | '\x0c' => ['\\', 'f']
  | '\n' => ['\\', 'n']
  | '\r' => ['\\', 'r']
  | '\t' => ['\\', 't']
  | c =>
    if c.toNat < 0x20 then
      ['\\', 'u', '0', '0', Nat.digitChar (c.toNat / 16), Nat.digitChar (c.toNat % 16)]
    else [c]

def quote (s : String) : String :=
  String.ofList ('"' :: s.toList.flatMap escape ++ ['"'])

/-- The word for a number that is not finite. -/
def nonFinite : Binary64 → String
  | .nan => "NaN"
  | .infinite true => "-Infinity"
  | _ => "Infinity"

def number (x : Float) : String :=
  match jsonText? x with
  | some text => text
  | none => quote (nonFinite (.ofFloat x))

inductive Value where
  | flag (value : Bool)
  | number (value : Float)
  | text (value : String)
  | texts (items : List String)
  deriving DecidableEq, Repr

/-- The items between two brackets, each on a line one level further in than `indent` and with
commas between; without items the brackets stand side by side. -/
def block (indent opening closing : String) (items : List String) : String :=
  match items with
  | [] => opening ++ closing
  | _ =>
    opening ++ "\n" ++ String.intercalate ",\n" (items.map (indent ++ "  " ++ ·)) ++ "\n" ++
      indent ++ closing

/-- A value that starts on a line indented by `indent`. -/
def Value.pretty (indent : String) : Value → String
  | flag value => if value then "true" else "false"
  | number value => Json.number value
  | text value => quote value
  | texts items => block indent "[" "]" (items.map quote)

def pretty (fields : List (String × Value)) : String :=
  block "" "\x7b" "\x7d" (fields.map fun (key, value) => quote key ++ ": " ++ value.pretty "  ")

end Json

namespace Reply

open Json.Value in
/-- The fields of a reply, in order. -/
def fields : Reply → List (String × Json.Value)
  | evaluated expression steps result =>
    [("ok", flag true), ("expression", text expression), ("steps", texts steps),
      ("result", number result)]
  | solved equation x => [("ok", flag true), ("equation", text equation), ("x", number x)]
  | refused message => [("ok", flag false), ("error", text message)]

def pretty (r : Reply) : String :=
  Json.pretty r.fields

end Reply

end Reckoner
