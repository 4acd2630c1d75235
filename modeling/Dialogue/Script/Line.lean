import Dialogue.Script.Error
import Dialogue.Text.Blank
import Dialogue.Text.Split

/-! Script lines: one or two tags in angle brackets, then the content. -/

namespace Dialogue

/-- A line of a script, decoded. -/
structure Line where
  number : Nat
  tags : List String
  content : String
  deriving Repr, DecidableEq

namespace Line

/-- The inside of the next tag, which reaches from the next opening bracket to the first closing
bracket after it, and what follows the tag.
-/
def nextTag? (text : List Char) : Option (List Char × List Char) :=
  (Text.cut '<' text).bind fun (_, inside) => Text.cut '>' inside

theorem length_of_nextTag? {text tag rest : List Char} (h : nextTag? text = some (tag, rest))
    : rest.length < text.length := by
  obtain ⟨⟨before, inside⟩, opened, closed⟩ := Option.bind_eq_some_iff.mp h
  exact Nat.lt_trans (Text.length_of_cut closed) (Text.length_of_cut opened)

/-- The insides of all tags, from left to right. -/
def tagTexts (text : List Char) : List (List Char) :=
  match _found : nextTag? text with
  | some (tag, rest) => tag :: tagTexts rest
  | none => []
termination_by text.length
decreasing_by exact length_of_nextTag? _found

/-- Decodes the text of a line. The tags and the content, which follows the last closing bracket,
are trimmed. A blank tag is a fault even where there are too many tags.
-/
def decode (number : Nat) (text : String) : Except ScriptError Line :=
  let chars := text.toList
  let tags := (tagTexts chars).map Text.trim
  if tags.any List.isEmpty then .error (.emptyTag number)
  else if tags.isEmpty then .error (.missingTag number text)
  else if 2 < tags.length then .error (.tooManyTags number tags.length)
  else
    .ok {
      number
      tags := tags.map String.ofList
      content := String.ofList (Text.trim (Text.afterLast '>' chars))
    }

def render (line : Line) : String :=
  String.join (line.tags.map fun tag => "<" ++ tag ++ ">") ++ line.content

def first? (line : Line) : Option String :=
  line.tags.head?

/-- The number of the line at an index, 0 where there is none. -/
def numberAt (lines : List Line) (index : Nat) : Nat :=
  (lines[index]?.map number).getD 0

/-- Whether the line is a sole closing tag. -/
def isTerminator (line : Line) : Bool :=
  line.tags = ["/"]

/-- Whether the line's first tag opens a choices block or an option block. -/
def isOpening (line : Line) : Bool :=
  line.first? = some "choices" || line.first? = some "option"

end Line

end Dialogue
