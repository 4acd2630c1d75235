import Dialogue.Lint.Check

/-! Linting in one go: every issue is added to a report as soon as it is found. The look at the
option blocks serves two checks, since it also collects what thresholds are held against.
-/

namespace Dialogue.Lint

/-- A moment of the look at the option blocks: the first block of each name so far, and the report.
-/
structure Pass where
  firsts : List Definition
  report : Report

/-- Looks at one more option block. The first of a name is kept, and a further one is reported if
duplicates are.
-/
def Pass.meet (duplicates : Bool) (pass : Pass) (definition : Definition) : Pass :=
  match Definition.first? pass.firsts definition.name with
  | some first =>
      if duplicates then { pass with report := pass.report.add (redefinition first definition) }
      else pass
  | none => { pass with firsts := definition :: pass.firsts }

/-- Looks at a guard, with the first option blocks at hand. -/
def weighGuard (firsts : List Definition) (report : Report) : Nat × Guard → Report
  | (line, guard) =>
      match Definition.first? firsts guard.option with
      | some first =>
          if first.choices < guard.threshold then
            report.add (impossibleGuard line guard first.choices)
          else report
      | none => report

def passReferences (config : ReferenceChecks) (graph : Graph) (report : Report) : Report :=
  let pass := graph.definitions.foldl (Pass.meet config.duplicates) ⟨[], report⟩
  if config.thresholds then graph.guardsByLine.foldl (weighGuard pass.firsts) pass.report
  else pass.report

/-- Looks at a slot, which is reported if it should be reachable and is not. -/
def visitSlot (graph : Graph) (reachable : List Nat) (report : Report) (id : Nat) : Report :=
  if reachable.contains id || (graph.node id).isPlaceholder || graph.node id = .start then report
  else report.add (unreachableNode (graph.line id) (graph.node id))

def passFlow (config : FlowChecks) (graph : Graph) (report : Report) : Report :=
  let report :=
    if config.unreachable then graph.ids.foldl (visitSlot graph graph.reachable) report else report
  if config.unusedOptions then (unusedOptions graph).foldl Report.add report else report

/-- The report of all passes that are on. -/
def run (config : Config) (graph : Graph) : Report :=
  let report := if config.references.enabled then passReferences config.references graph .empty
    else .empty
  let report := if config.flow.enabled then passFlow config.flow graph report else report
  report.sorted

end Dialogue.Lint
