import Dialogue.Command.Files
import Dialogue.Command.Flags
import Dialogue.Digest
import Dialogue.Json.Writer
import Dialogue.Lint.Check
import Dialogue.Play.Playthrough
import Dialogue.Script.Compile

/-! What can be done with a script: play it, check it, and print its graph. -/

namespace Dialogue.Command

/-- The commands that take a script. -/
inductive Action where
  | play
  | check
  | graph
  deriving Repr, DecidableEq

/-- The command of a name. -/
def Action.ofName? : String → Option Action
  | "play" => some .play
  | "check" => some .check
  | "graph" => some .graph
  | _ => none

/-- Why a command fails. -/
inductive CommandError where
  | flag (error : FlagError)
  | file (path : String) (error : FileError)
  | lintConfig
  | script (error : ScriptError)
  | play (error : EngineError)
  | endless
  deriving Repr, DecidableEq

/-- The wording of the failure, from what was attempted to its cause. -/
def CommandError.message : CommandError → String
  | flag error => error.message
  | file path error => "Failed to read file '" ++ path ++ "': " ++ error.message
  | lintConfig => "Invalid lint configuration: not the expected JSON value"
  | script error => "Failed to compile script: " ++ error.message
  | play error => "Playthrough failed: " ++ error.message
  | endless => "Playthrough failed: the dialogue never ends"

def compile (source : String) : Logged CommandError Graph :=
  (Script.compileText source).mapError .script

/-- The document of a step and its number, counted from 0. -/
def stepToJson (step : Step) (number : Nat) : Json :=
  .object [
    ("step_number", .natural number),
    ("kind", .text step.kind),
    ("name", .text step.name),
    ("content", .text step.content),
    ("choices", .array (step.choices.map Json.text))]

/-- The document of a playthrough, with a digest of the script's text. -/
def playToJson (source : String) (steps : List Step) (memory : Memory) : Json :=
  .object [
    ("input_hash", .text (Digest.ofText source)),
    ("steps", .array (steps.zipIdx.map fun (step, number) => stepToJson step number)),
    ("final_memory", memory.toJson)]

def renderSteps (steps : List Step) : String :=
  String.join (steps.map fun step => step.render ++ "\n")

/-- Plays a script to its end and shows it as text or as JSON. -/
def play (source : String) (answers : List Nat) (json : Bool) : Logged CommandError String := do
  let graph ← compile source
  let played := graph.play answers
  Logged.report played.events
  match played.ending with
  | .failed error => throw (.play error)
  | .endless => throw .endless
  | .complete =>
      return if json then (playToJson source played.steps played.memory).pretty
        else renderSteps played.steps

/-- The issues of a report, one line each, and a line with the number of reachable nodes and the
tallies.
-/
def renderReport (graph : Graph) (report : Lint.Report) : String :=
  String.join (report.issues.map fun issue => issue.render ++ "\n")
    ++ toString graph.reachable.length ++ " nodes, " ++ toString report.errors ++ " errors, "
    ++ toString report.warnings ++ " warnings, " ++ toString report.infos ++ " info\n"

def readLintConfig (text : String) : Except CommandError Lint.Config :=
  match Lint.Config.ofText? text with
  | some config => .ok config
  | none => .error .lintConfig

/-- Checks a script: its report, and the report as text. -/
def check (source : String) (config : Lint.Config)
    : Logged CommandError (Lint.Report × String) := do
  let graph ← compile source
  let report := Lint.check config graph
  return (report, renderReport graph report)

def graph (source : String) : Logged CommandError String :=
  Graph.render <$> compile source

end Dialogue.Command
