import Dialogue.Graph.Basic
import Dialogue.Json.Basic

/-! Graphs as JSON documents: an object per record, and an object with one member, named for the
kind, per node with content. A record is also read from the array of its fields, but the content of
a node is not.
-/

namespace Dialogue

def Guard.toJson (guard : Guard) : Json :=
  .object [("option", .text guard.option), ("threshold", .natural guard.threshold)]

/-- The document of a node. -/
def Node.toJson : Node → Json
  | .start => .text "Start"
  | .beat (.scene content) => .object [("Scene", .object [("content", .text content)])]
  | .beat (.option name choices) =>
      .object [
        ("Option", .object [("name", .text name), ("choices", .array (choices.map Json.text))])]
  | .beat (.say speaker content) =>
      .object [("Say", .object [("speaker", .text speaker), ("content", .text content)])]
  | .beat (.think speaker content) =>
      .object [("Think", .object [("speaker", .text speaker), ("content", .text content)])]
  | .ending => .text "End"
  | .choice guards =>
      .object [("Choice", .object [("guards", .array (guards.map Guard.toJson))])]
  | .dead => .text "Dead"
  | .empty => .text "Empty"

/-- The document of a slot. -/
def Slot.toJson (slot : Slot) : Json :=
  .object [
    ("node", slot.node.toJson),
    ("line", .natural slot.line),
    ("next", .array (slot.next.map Json.natural))]

def Graph.toJson (graph : Graph) : Json :=
  .object [
    ("slots", .array (graph.slots.map Slot.toJson)),
    ("root", .natural graph.root)]

def Guard.ofJson? (json : Json) : Option Guard := do
  let [option, threshold] ← json.fields? ["option", "threshold"] | none
  return ⟨← option.text?, ← threshold.natural? maxThreshold⟩

/-- The beat of a kind, from the document of its content. -/
def Beat.ofJson? (kind : String) (content : Json) : Option Beat :=
  match kind with
  | "Scene" => do
      let [content] ← content.select? ["content"] | none
      return .scene (← content.text?)
  | "Option" => do
      let [name, choices] ← content.select? ["name", "choices"] | none
      return .option (← name.text?) (← choices.listOf? Json.text?)
  | "Say" => do
      let [speaker, content] ← content.select? ["speaker", "content"] | none
      return .say (← speaker.text?) (← content.text?)
  | "Think" => do
      let [speaker, content] ← content.select? ["speaker", "content"] | none
      return .think (← speaker.text?) (← content.text?)
  | _ => none

/-- The node of a kind, from the document of its content. -/
def Node.ofContent? (kind : String) (content : Json) : Option Node :=
  match kind with
  | "Choice" => do
      let [guards] ← content.select? ["guards"] | none
      return .choice (← guards.listOf? Guard.ofJson?)
  | _ => (Beat.ofJson? kind content).map Node.beat

/-- The node without content of a kind. -/
def Node.ofKind? : String → Option Node
  | "Start" => some .start
  | "End" => some .ending
  | "Dead" => some .dead
  | "Empty" => some .empty
  | _ => none

/-- The node of a document. -/
def Node.ofJson? (json : Json) : Option Node :=
  match json.bareVariant?.bind Node.ofKind? with
  | some node => some node
  | none =>
      match json.variant? with
      | some (kind, some content) => Node.ofContent? kind content
      | _ => none

def Slot.ofJson? (json : Json) : Option Slot := do
  let [node, line, next] ← json.fields? ["node", "line", "next"] | none
  return ⟨← Node.ofJson? node, ← line.natural? maxIndex, ← next.listOf? (Json.natural? maxIndex)⟩

def Graph.ofJson? (json : Json) : Option Graph := do
  let [slots, root] ← json.fields? ["slots", "root"] | none
  return ⟨← slots.listOf? Slot.ofJson?, ← root.natural? maxIndex⟩

end Dialogue
