import Dialogue.Json.Token

/-! Reading JSON text: a value is built from tokens with the arrays and objects still open on a
stack, so nesting has no limit.
-/

namespace Dialogue.Json

/-- An array or object that is still open, its finished parts last first. A member has the name
none when its name is no text.
-/
inductive Frame where
  | array (items : List Json)
  | member (done : List (Option String × Json)) (name : Option String)

/-- What has been read, innermost frame first, and what may come next. -/
inductive Partial where
  | wantValue (stack : List Frame)
  | inArray (stack : List Frame)
  | inObject (stack : List Frame)
  | wantName (done : List (Option String × Json)) (stack : List Frame)
  | wantColon (done : List (Option String × Json)) (name : Option String) (stack : List Frame)
  | complete (value : Json) (stack : List Frame)

def closeObject (done : List (Option String × Json)) : Json :=
  match done.reverse.mapM fun (name, value) => name.map (·, value) with
  | some members => .object members
  | none => .unpaired

/-- The start of a value. -/
def openValue (stack : List Frame) : Token → Option Partial
  | .value json => some (.complete json stack)
  | .leftBracket => some (.inArray stack)
  | .leftBrace => some (.inObject stack)
  | _ => none

def memberName (done : List (Option String × Json)) (stack : List Frame) : Token → Option Partial
  | .value (.text name) => some (.wantColon done (some name) stack)
  | .value .unpaired => some (.wantColon done none stack)
  | _ => none

/-- One step of the reading; none when the token does not fit. -/
def advancePartial : Partial → Token → Option Partial
  | .wantValue stack, token => openValue stack token
  | .inArray stack, .rightBracket => some (.complete (.array []) stack)
  | .inArray stack, token => openValue (.array [] :: stack) token
  | .inObject stack, .rightBrace => some (.complete (.object []) stack)
  | .inObject stack, token => memberName [] stack token
  | .wantName done stack, token => memberName done stack token
  | .wantColon done name stack, .colon => some (.wantValue (.member done name :: stack))
  | .complete value (.array items :: stack), .comma =>
      some (.wantValue (.array (value :: items) :: stack))
  | .complete value (.array items :: stack), .rightBracket =>
      some (.complete (.array (value :: items).reverse) stack)
  | .complete value (.member done name :: stack), .comma =>
      some (.wantName ((name, value) :: done) stack)
  | .complete value (.member done name :: stack), .rightBrace =>
      some (.complete (closeObject ((name, value) :: done)) stack)
  | _, _ => none

/-- The value that a JSON text stands for; none when the text is not one JSON value. -/
def read? (text : String) : Option Json :=
  match (tokens? text).bind fun tokens => tokens.foldlM advancePartial (.wantValue []) with
  | some (.complete value []) => some value
  | _ => none

end Dialogue.Json
