import Dialogue.Proofs.Lint.Findings
import Dialogue.Proofs.Play.Answers
import Dialogue.Proofs.Play.Progress

/-! What the errors of a lint report say about playing: an answer is below the number of choices of
some option block of its name, though not always of the first.
-/

namespace Dialogue

namespace Engine

/-- What an engine asks for is the option of a block that the dialogue can reach. -/
theorem Asks.exists_definition {graph : Graph} (compiled : Script.Compiled graph) {name : String}
    {count : Nat} (asks : Asks graph name count)
    : ∃ definition ∈ graph.definitions, definition.name = name ∧ definition.choices = count := by
  obtain ⟨id, reached, choices, found, many⟩ := asks.exists_option compiled.inRange
  refine ⟨⟨name, count, graph.line id⟩, ?_, rfl, rfl⟩
  exact Graph.mem_definitions_iff.mpr ⟨id, reached, choices, found, many, rfl⟩

end Engine

-----------------------------------------------------------------------------------------
-- Two scripts with an error
-----------------------------------------------------------------------------------------

namespace Script

/-- A script whose guard asks for a second choice, where the option has one. -/
def overlong : List String :=
  ["<option>pick", "<a>A", "</>", "<choices>", "<pick,2>", "<A>Second", "</>"]

def overlongGraph : Graph where
  slots :=
    [⟨.start, 0, [1]⟩, ⟨.beat (.option "pick" ["A"]), 1, [2]⟩, ⟨.choice [⟨"pick", 2⟩], 4, [3]⟩,
      ⟨.beat (.say "A" "Second"), 6, [6]⟩, ⟨.dead, 6, [5]⟩, ⟨.dead, 7, [6]⟩, ⟨.ending, 0, []⟩]
  root := 0

theorem compile_overlong : (compile overlong).outcome = .ok overlongGraph := by
  decide +kernel

/-- The same guard, where a later block of the option has two choices. -/
def redefined : List String :=
  ["<option>pick", "<a>A", "</>", "<option>pick", "<a>A", "<b>B", "</>", "<choices>", "<pick,2>",
    "<A>Second", "</>"]

def redefinedGraph : Graph where
  slots :=
    [⟨.start, 0, [1]⟩, ⟨.beat (.option "pick" ["A"]), 1, [2]⟩,
      ⟨.beat (.option "pick" ["A", "B"]), 4, [3]⟩, ⟨.choice [⟨"pick", 2⟩], 8, [4]⟩,
      ⟨.beat (.say "A" "Second"), 10, [7]⟩, ⟨.dead, 10, [6]⟩, ⟨.dead, 11, [7]⟩, ⟨.ending, 0, []⟩]
  root := 0

theorem compile_redefined : (compile redefined).outcome = .ok redefinedGraph := by
  decide +kernel

end Script

-----------------------------------------------------------------------------------------
-- Main statement
-----------------------------------------------------------------------------------------

open Engine

/-- Every error of a lint report is about a guard of a reachable choice that asks for more than the
first block of its option offers. The guard comes to hold if and only if the option is asked for
with enough choices elsewhere. So it never holds if no block of the option that the dialogue can
reach has enough choices.
-/
theorem Lint.guard_of_error {graph : Graph} (compiled : Script.Compiled graph) {config : Config}
    {issue : Issue} (reported : issue ∈ (check config graph).issues)
    (serious : issue.severity = .error)
    : ∃ line guard first,
        issue = impossibleGuard line guard first.choices
        ∧ (line, guard) ∈ graph.guardsByLine
        ∧ Definition.first? graph.definitions guard.option = some first
        ∧ first.choices < guard.threshold
        ∧ ((∃ engine, Visits graph engine ∧ engine.memory.satisfies guard = true)
            ↔ ∃ count, Asks graph guard.option count ∧ guard.threshold ≤ count)
        ∧ ((∀ definition ∈ graph.definitions,
              definition.name = guard.option → definition.choices < guard.threshold)
            → ∀ engine, Visits graph engine → engine.memory.satisfies guard = false) := by
  obtain ⟨line, guard, first, guarded, defined, few, rfl⟩ :=
    mem_impossibleGuards_iff.mp (mem_impossibleGuards_of_error reported serious)
  have comesToHold := exists_satisfies_iff graph (Nat.zero_lt_of_lt few)
  refine ⟨line, guard, first, rfl, guarded, defined, few, comesToHold, ?_⟩
  intro tooFew engine visits
  refine Bool.eq_false_iff.mpr fun holds => ?_
  obtain ⟨count, asked, enough⟩ := comesToHold.mp ⟨engine, visits, holds⟩
  obtain ⟨definition, member, named, rfl⟩ := asked.exists_definition compiled
  exact Nat.not_le_of_lt (tooFew definition member named) enough

/-- Where the one block of the option has too few choices, the guard of the error never holds. -/
theorem Lint.overlong_guard_fails
    : (Script.compile Script.overlong).outcome = .ok Script.overlongGraph
      ∧ impossibleGuard 4 ⟨"pick", 2⟩ 1 ∈ (check {} Script.overlongGraph).issues
      ∧ ∀ engine,
          Visits Script.overlongGraph engine → engine.memory.satisfies ⟨"pick", 2⟩ = false := by
  have reported : impossibleGuard 4 ⟨"pick", 2⟩ 1 ∈ (check {} Script.overlongGraph).issues := by
    decide +kernel
  refine ⟨Script.compile_overlong, reported, ?_⟩
  obtain ⟨line, guard, first, -, guarded, -, -, -, fails⟩ :=
    guard_of_error (.lines Script.compile_overlong) reported rfl
  have guards : Script.overlongGraph.guardsByLine = [(4, ⟨"pick", 2⟩)] := by decide +kernel
  have definitions : Script.overlongGraph.definitions = [⟨"pick", 1, 1⟩] := by decide +kernel
  obtain ⟨-, rfl⟩ : line = 4 ∧ guard = ⟨"pick", 2⟩ := by simpa [guards] using guarded
  exact fails (by simp [definitions])

/-- Where a later block of the option has enough choices, an error is reported all the same, and
answering the second prompt with its second choice makes the guard of the error hold.
-/
theorem Lint.redefined_guard_holds
    : (Script.compile Script.redefined).outcome = .ok Script.redefinedGraph
      ∧ impossibleGuard 8 ⟨"pick", 2⟩ 1 ∈ (check {} Script.redefinedGraph).issues
      ∧ ∃ engine,
          Visits Script.redefinedGraph engine
          ∧ engine.memory.satisfies ⟨"pick", 2⟩ = true := by
  have begun : Visits Script.redefinedGraph (start Script.redefinedGraph) := .start
  have answered := (begun.advance.select 0).advance.select 1
  exact ⟨Script.compile_redefined, by decide +kernel, _, answered, by decide +kernel⟩

end Dialogue
