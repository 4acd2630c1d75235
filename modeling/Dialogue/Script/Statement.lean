import Dialogue.Graph.Node
import Dialogue.Script.Line
import Dialogue.Text.Numeral

/-! What a line says, given the option names that are known where it stands. -/

namespace Dialogue

/-- The meaning of a line. -/
inductive Statement where
  | scene (content : String)
  | option (name : String)
  | ending
  | choices
  | dead
  | terminator
  /-- A line in the shape of a branch label for a known option. -/
  | label (option : String)
  | think (speaker content : String)
  | say (speaker content : String)
  deriving Repr, DecidableEq

namespace Line

/-- The two parts of a line in the shape of a label: its two tags, or the trimmed halves of its
only tag around the first comma.
-/
def labelShape? (line : Line) : Option (String × String) :=
  match line.tags with
  | [name, threshold] => some (name, threshold)
  | [only] =>
      (Text.cut ',' only.toList).map fun (name, threshold) =>
        (String.ofList (Text.trim name), String.ofList (Text.trim threshold))
  | _ => none

/-- The option name and the threshold text of a label for one of these options. No option named
like the tag that opens option blocks has labels.
-/
def labelParts? (names : List String) (line : Line) : Option (String × String) :=
  line.labelShape?.filter fun (name, _) => name ≠ "option" && names.contains name

/-- The threshold that a text gives. -/
def threshold? (text : String) : Option Nat :=
  (Text.readNumeral maxThreshold text.toList).toOption

/-- The guard of a label, whose threshold has to be a number; none when the line is no label. -/
def guard (names : List String) (line : Line) : Except ScriptError (Option Guard) :=
  match line.labelParts? names with
  | none => .ok none
  | some (option, text) =>
      match threshold? text with
      | some threshold => .ok (some ⟨option, threshold⟩)
      | none => .error (.invalidThreshold line.number option text)

/-- The guard of a label with a threshold that is a number; none for every other line. -/
def branch? (names : List String) (line : Line) : Option Guard :=
  (line.labelParts? names).bind fun (option, text) =>
    (threshold? text).map fun threshold => ⟨option, threshold⟩

/-- What a line that is no label says. -/
def plainStatement (line : Line) : Except ScriptError Statement :=
  match line.tags with
  | ["scene"] => .ok (.scene line.content)
  | ["option"] =>
      if line.content.isEmpty then .error (.missingOptionName line.number)
      else .ok (.option line.content)
  | ["option", name] => .ok (.option name)
  | ["END"] => .ok .ending
  | ["choices"] => .ok .choices
  | ["//"] => .ok .dead
  | ["/"] => .ok .terminator
  | [speaker] => .ok (.say speaker line.content)
  | [speaker, _] => .ok (.think speaker line.content)
  | tags => .error (.tooManyTags line.number tags.length)

/-- What a line says where these option names are known. -/
def statement (names : List String) (line : Line) : Except ScriptError Statement :=
  match line.labelParts? names with
  | some (option, _) => .ok (.label option)
  | none => line.plainStatement

/-- The names of all options that the lines open, whatever encloses them. -/
def optionNames (lines : List Line) : Except ScriptError (List String) := do
  let statements ← (lines.filter fun line => line.first? = some "option").mapM plainStatement
  return statements.filterMap fun
    | .option name => some name
    | _ => none

end Line

end Dialogue
