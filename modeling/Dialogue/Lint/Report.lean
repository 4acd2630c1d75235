import Dialogue.Graph.Basic
import Dialogue.Json.Basic

/-! Lint reports: the issues found in a dialogue, with a tally for each severity. -/

namespace Dialogue.Lint

/-- How serious an issue is. -/
inductive Severity where
  | error
  | warning
  | info
  deriving Repr, DecidableEq

/-- Something that a check found. `line` is 0 where no source line is to blame. -/
structure Issue where
  severity : Severity
  message : String
  line : Nat
  category : String
  deriving Repr, DecidableEq

/-- The issues found so far, and how many there are of each severity. -/
structure Report where
  issues : List Issue
  errors : Nat
  warnings : Nat
  infos : Nat
  deriving Repr, DecidableEq

namespace Report

def empty : Report :=
  ⟨[], 0, 0, 0⟩

/-- Adds an issue after the others. -/
def add (report : Report) (issue : Issue) : Report :=
  let issues := report.issues ++ [issue]
  match issue.severity with
  | .error => { report with issues, errors := report.errors + 1 }
  | .warning => { report with issues, warnings := report.warnings + 1 }
  | .info => { report with issues, infos := report.infos + 1 }

def hasErrors (report : Report) : Bool :=
  0 < report.errors

def isClean (report : Report) : Bool :=
  report.issues.isEmpty

end Report

/-- Inserts an issue before the first one whose line is not smaller. -/
def insertByLine (issue : Issue) : List Issue → List Issue
  | [] => [issue]
  | other :: rest =>
      if issue.line ≤ other.line then issue :: other :: rest
      else other :: insertByLine issue rest

/-- The issues by line; those of one line keep their order. -/
def sortByLine (issues : List Issue) : List Issue :=
  issues.foldr insertByLine []

def Report.sorted (report : Report) : Report :=
  { report with issues := sortByLine report.issues }

def Severity.word : Severity → String
  | .error => "error"
  | .warning => "warning"
  | .info => "info"

def Issue.render (issue : Issue) : String :=
  issue.severity.word ++ "[" ++ issue.category ++ "] line " ++ toString issue.line ++ ": "
    ++ issue.message

def Severity.tag : Severity → String
  | .error => "Error"
  | .warning => "Warning"
  | .info => "Info"

def Severity.ofJson? (json : Json) : Option Severity :=
  json.bareVariant?.bind fun name =>
    [Severity.error, .warning, .info].find? fun severity => severity.tag = name

/-- The issue of a document. -/
def Issue.ofJson? (json : Json) : Option Issue := do
  let [level, message, line, category] ← json.fields? ["level", "message", "line", "category"]
    | none
  return {
    severity := ← Severity.ofJson? level
    message := ← message.text?
    line := ← line.natural? maxIndex
    category := ← category.text?
  }

end Dialogue.Lint
