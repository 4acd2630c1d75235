import Dialogue.Lint.Config
import Dialogue.Lint.Report
import Dialogue.Play.Engine

/-! The four lint checks of a dialogue graph, and the report of those that are on. -/

namespace Dialogue

/-- An option block of a graph: the option's name, how many choices it has, and its line. -/
structure Definition where
  name : String
  choices : Nat
  line : Nat
  deriving Repr, DecidableEq

def Definition.first? (definitions : List Definition) (name : String) : Option Definition :=
  definitions.find? fun definition => definition.name = name

namespace Graph

/-- The option blocks that the dialogue can reach, in preorder. -/
def definitions (graph : Graph) : List Definition :=
  graph.reachable.filterMap fun id =>
    match graph.node id with
    | .beat (.option name choices) => some ⟨name, choices.length, graph.line id⟩
    | _ => none

/-- The guards of the choices that the dialogue can reach, in preorder, each with the line of its
choice.
-/
def guardsByLine (graph : Graph) : List (Nat × Guard) :=
  graph.reachable.flatMap fun id =>
    match graph.node id with
    | .choice guards => guards.map fun guard => (graph.line id, guard)
    | _ => []

end Graph

namespace Lint

/-- An option block whose name was defined before. -/
def redefinition (first further : Definition) : Issue where
  severity := .info
  message := "Option '" ++ further.name ++ "' is redefined; the first definition is at line "
    ++ toString first.line
  line := further.line
  category := "references"

/-- The redefinitions among option blocks that come after the first blocks `firsts`. -/
def redefinitionsAfter (firsts : List Definition) : List Definition → List Issue
  | [] => []
  | definition :: rest =>
      match Definition.first? firsts definition.name with
      | some first => redefinition first definition :: redefinitionsAfter firsts rest
      | none => redefinitionsAfter (definition :: firsts) rest

/-- Every option block after the first of its name. -/
def redefinitions (graph : Graph) : List Issue :=
  redefinitionsAfter [] graph.definitions

/-- A guard that asks for a choice which its option does not have. -/
def impossibleGuard (line : Nat) (guard : Guard) (choices : Nat) : Issue where
  severity := .error
  message := "Branch <" ++ guard.render ++ "> can never match: option '" ++ guard.option
    ++ "' has " ++ toString choices ++ " choices"
  line := line
  category := "references"

/-- Every guard with a threshold above the number of choices in its option's first block. -/
def impossibleGuards (graph : Graph) : List Issue :=
  let definitions := graph.definitions
  graph.guardsByLine.filterMap fun (line, guard) =>
    match Definition.first? definitions guard.option with
    | some definition =>
        if definition.choices < guard.threshold then
          some (impossibleGuard line guard definition.choices)
        else none
    | none => none

/-- A node that the dialogue cannot reach. -/
def unreachableNode (line : Nat) (node : Node) : Issue where
  severity := .warning
  message := "Unreachable " ++ node.kind ++ ": " ++ node.render
  line := line
  category := "flow"

/-- Every node that the dialogue cannot reach, placeholders and starts apart. -/
def unreachableNodes (graph : Graph) : List Issue :=
  let reachable := graph.reachable
  let unreachable := graph.ids.filter fun id =>
    !reachable.contains id && !(graph.node id).isPlaceholder && graph.node id ≠ .start
  unreachable.map fun id => unreachableNode (graph.line id) (graph.node id)

/-- An option that no choice asks about. -/
def unusedOption (definition : Definition) : Issue where
  severity := .info
  message := "Option '" ++ definition.name ++ "' is never used by a choices block"
  line := definition.line
  category := "flow"

/-- Every option that no reachable guard names, in the order of names. -/
def unusedOptions (graph : Graph) : List Issue :=
  let used := graph.guardsByLine.map fun (_, guard) => guard.option
  let declared := (Engine.start graph).memory.entries.map Prod.fst
  let definitions := graph.definitions
  (declared.filter fun name => !used.contains name).filterMap fun name =>
    (Definition.first? definitions name).map unusedOption

/-- What the checks find that are on, check by check. -/
def findings (config : Config) (graph : Graph) : List Issue :=
  (if config.references.enabled && config.references.duplicates then redefinitions graph else [])
  ++ (if config.references.enabled && config.references.thresholds then impossibleGuards graph
      else [])
  ++ (if config.flow.enabled && config.flow.unreachable then unreachableNodes graph else [])
  ++ (if config.flow.enabled && config.flow.unusedOptions then unusedOptions graph else [])

def check (config : Config) (graph : Graph) : Report :=
  ((findings config graph).foldl Report.add .empty).sorted

end Lint

end Dialogue
