/-! JSON values as this library reads and writes them. -/

namespace Dialogue

/-- A JSON value. Objects keep the order of their members, and repeated names too. -/
inductive Json where
  | null
  | bool (value : Bool)
  /-- An integer from zero up, written without sign, fraction and exponent. -/
  | natural (value : Nat)
  /-- Any other number, as written. -/
  | number (literal : String)
  | text (content : String)
  /-- A string that is no text, or an object with such a name, because an escape gives one half
  of a surrogate pair without the other. -/
  | unpaired
  | array (items : List Json)
  | object (members : List (String × Json))

namespace Json

def text? : Json → Option String
  | .text content => some content
  | _ => none

def bool? : Json → Option Bool
  | .bool value => some value
  | _ => none

def natural? (bound : Nat) : Json → Option Nat
  | .natural value => if value ≤ bound then some value else none
  | _ => none

def items? : Json → Option (List Json)
  | .array items => some items
  | _ => none

def members? : Json → Option (List (String × Json))
  | .object members => some members
  | _ => none

/-- The value of the last member of a name. -/
def member? (name : String) (json : Json) : Option Json :=
  json.members?.bind fun members => members.reverse.lookup name

def select? (names : List String) (json : Json) : Option (List Json) :=
  names.mapM fun name => json.member? name

/-- The values of a record's fields: an object with at least these members, or an array of exactly
as many items.
-/
def fields? (names : List String) : Json → Option (List Json)
  | .array items => if items.length = names.length then some items else none
  | json => json.select? names

/-- The name of a variant and its payload: a text alone, or an object with members of one name, of
which the last counts.
-/
def variant? : Json → Option (String × Option Json)
  | .text name => some (name, none)
  | .object members =>
      match members.reverse with
      | (name, payload) :: earlier =>
          if earlier.all fun member => member.1 = name then some (name, some payload) else none
      | [] => none
  | _ => none

/-- The name of a variant without content, whose payload may be written as null. -/
def bareVariant? (json : Json) : Option String :=
  match json.variant? with
  | some (name, none) => some name
  | some (name, some .null) => some name
  | _ => none

/-- Every item of an array, read by `read`. -/
def listOf? {α : Type} (read : Json → Option α) (json : Json) : Option (List α) :=
  json.items?.bind fun items => items.mapM read

end Json

end Dialogue
