import Dialogue.Command.Action
import Dialogue.Log.Filter

/-! The command line: from arguments and files to what is printed and the exit status. -/

namespace Dialogue.Command

/-- The exit status of a command and what it prints. -/
structure Output where
  code : Nat
  stdout : String
  stderr : String
  deriving Repr, DecidableEq

/-- How to use the command line. -/
def usage : String :=
  let lines := [
    "katari - Branching dialogue script engine",
    "",
    "USAGE:",
    "    katari <command> <script> [options]",
    "",
    "COMMANDS:",
    "    play <file>     Walk the dialogue, one line per step",
    "    check <file>    Compile and lint the script",
    "    graph <file>    Print the compiled node graph",
    "    --help, -h      Show this help message",
    "",
    "OPTIONS:",
    "    --select 0,1,..          Answers for successive prompts (play, default 0)",
    "    --json                   Print a JSON dump of the playthrough (play)",
    "    --lint-config <file>     Lint configuration in JSON (check)",
    "    --debug                  Log parser and engine activity to stderr",
    "",
    "EXAMPLES:",
    "    katari play scripts/intro.dlg --select 1,0",
    "    katari check scripts/intro.dlg"]
  String.join (lines.map fun line => line ++ "\n")

def readFile (files : Files) (path : String) : Except CommandError String :=
  (files path).mapError (.file path)

/-- Carries out a command: what it prints, and whether it succeeds. -/
def act (files : Files) (path : String) (options : Options) (action : Action)
    : Logged CommandError (String × Bool) := do
  let source ← Logged.ofExcept (readFile files path)
  match action with
  | .play =>
      let output ← play source options.selections options.json
      return (if options.json then output ++ "\n" else output, true)
  | .check =>
      let config ←
        match options.lintConfig with
        | some path => do
            let text ← Logged.ofExcept (readFile files path)
            Logged.ofExcept (readLintConfig text)
        | none => pure {}
      let (report, output) ← check source config
      return (output, !report.hasErrors)
  | .graph => return (← graph source, true)

/-- Carries out a command with the flags after its script. The debug flag takes the place of the
`setting` of the log.
-/
def runAction (files : Files) (setting : Option String) (path : String)
    (arguments : List String) (action : Action)
    : Output :=
  match readOptions arguments with
  | .error error => ⟨1, "", "Error: " ++ (CommandError.flag error).message ++ "\n"⟩
  | .ok options =>
      let filter := if options.debug then LogFilter.upTo .debug else LogFilter.ofSetting setting
      let result := act files path options action
      let log := filter.log result.events
      match result.outcome with
      | .error error => ⟨1, "", log ++ "Error: " ++ error.message ++ "\n"⟩
      | .ok (output, success) => ⟨if success then 0 else 1, output, log⟩

/-- Runs the command line with these arguments. -/
def run (files : Files) (setting : Option String) : (arguments : List String) → Output
  | [] => ⟨1, usage, ""⟩
  | command :: rest =>
      match Action.ofName? command, rest with
      | some action, path :: arguments => runAction files setting path arguments action
      | some _, [] => ⟨1, usage, "Error: Missing script file path\n\n"⟩
      | none, _ =>
          if command = "--help" ∨ command = "-h" then ⟨0, usage, ""⟩
          else ⟨1, usage, "Error: Unknown command '" ++ command ++ "'\n\n"⟩

/-- The files that the arguments name: the script and the lint configuration. -/
def paths : (arguments : List String) → List String
  | _ :: path :: arguments =>
      match readOptions arguments with
      | .ok options => path :: options.lintConfig.toList
      | .error _ => []
  | _ => []

end Dialogue.Command
