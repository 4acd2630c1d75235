import Dialogue.Graph.Node

/-! Steps: the nodes of a dialogue as they are presented to a player. -/

namespace Dialogue

/-- What a playthrough presents in one step. -/
inductive Step where
  | beat (beat : Beat)
  | ending
  deriving Repr, DecidableEq

/-- The step that presents a node. The start, choices and placeholders have none. -/
def Node.step? : Node → Option Step
  | .beat shown => some (.beat shown)
  | .ending => some .ending
  | _ => none

def Beat.choices : Beat → List String
  | .option _ choices => choices
  | _ => []

/-- Whose line a beat is, or which option it asks for. -/
def Beat.name : Beat → String
  | .scene _ => ""
  | .option name _ => name
  | .say speaker _ => speaker
  | .think speaker _ => speaker

/-- The text of a beat; for an option, all its choices. -/
def Beat.content : Beat → String
  | .scene content => content
  | .option _ choices => String.intercalate "; " choices
  | .say _ content => content
  | .think _ content => content

namespace Step

def kind : Step → String
  | beat shown => shown.kind
  | ending => "end"

def name : Step → String
  | beat shown => shown.name
  | ending => ""

def content : Step → String
  | beat shown => shown.content
  | ending => ""

def choices : Step → List String
  | beat shown => shown.choices
  | ending => []

def isOption : Step → Bool
  | beat (.option _ _) => true
  | _ => false

def render (step : Step) : String :=
  "type: " ++ step.kind ++ " | name: " ++ step.name ++ " | content: " ++ step.content
    ++ " | choices: " ++ String.intercalate " ; " step.choices

end Step

end Dialogue
