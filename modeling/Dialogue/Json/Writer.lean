import Dialogue.Json.Basic

/-! JSON text, on one line or laid out over lines. -/

namespace Dialogue.Json

/-- A character of a string as JSON text. Only quotes, backslashes and control characters are
escaped.
-/
def escapeChar (c : Char) : String :=
  if c = '"' then "\\\""
  else if c = '\\' then "\\\\"
  else if c.toNat = 8 then "\\b"
  else if c.toNat = 9 then "\\t"
  else if c.toNat = 10 then "\\n"
  else if c.toNat = 12 then "\\f"
  else if c.toNat = 13 then "\\r"
  else if c.toNat < 32 then
    String.ofList
      ['\\', 'u', '0', '0', Nat.digitChar (c.toNat / 16), Nat.digitChar (c.toNat % 16)]
  else String.singleton c

/-- A string as JSON text, quotes included. -/
def quote (content : String) : String :=
  "\"" ++ String.join (content.toList.map escapeChar) ++ "\""

/-- The JSON text of a value that has no parts. -/
def scalar : Json → String
  | .bool true => "true"
  | .bool false => "false"
  | .natural value => toString value
  | .number literal => literal
  | .text content => quote content
  | _ => "null"

mutual

def compact : Json → String
  | .array items => "[" ++ String.intercalate "," (compactItems items) ++ "]"
  | .object members => "\x7b" ++ String.intercalate "," (compactMembers members) ++ "\x7d"
  | json => scalar json

def compactItems : List Json → List String
  | [] => []
  | item :: rest => compact item :: compactItems rest

def compactMembers : List (String × Json) → List String
  | [] => []
  | (name, value) :: rest => (quote name ++ ":" ++ compact value) :: compactMembers rest

end

/-- The parts of an array or object on lines of their own, two spaces further in than the
brackets around them; brackets without parts stay together.
-/
def layOut (depth : Nat) (opening closing : String) (parts : List String) : String :=
  let lineStart (depth : Nat) := "\n" ++ String.ofList (List.replicate (2 * depth) ' ')
  if parts.isEmpty then opening ++ closing
  else
    opening ++ lineStart (depth + 1)
      ++ String.intercalate ("," ++ lineStart (depth + 1)) parts
      ++ lineStart depth ++ closing

mutual

/-- A value as JSON text over several lines, its outermost brackets `depth` levels in. -/
def prettyAt (depth : Nat) : Json → String
  | .array items => layOut depth "[" "]" (prettyItems (depth + 1) items)
  | .object members => layOut depth "\x7b" "\x7d" (prettyMembers (depth + 1) members)
  | json => scalar json

/-- The items of an array as JSON text, each `depth` levels in. -/
def prettyItems (depth : Nat) : List Json → List String
  | [] => []
  | item :: rest => prettyAt depth item :: prettyItems depth rest

/-- The members of an object as JSON text, each `depth` levels in. -/
def prettyMembers (depth : Nat) : List (String × Json) → List String
  | [] => []
  | (name, value) :: rest =>
      (quote name ++ ": " ++ prettyAt depth value) :: prettyMembers depth rest

end

def pretty (json : Json) : String :=
  prettyAt 0 json

end Dialogue.Json
