import Dialogue.Proofs.Lint.Findings
import Dialogue.Proofs.Play.Answers
import Dialogue.Proofs.Play.Progress
import Dialogue.Proofs.Script.Fidelity

/-! Guards that ask about an option which the dialogue never presents. Some line of the script opens
a block for such an option. A lint report warns of the line if it was compiled to a slot, but a line
that was left out is not heard of again.
-/

namespace Dialogue

open Engine

-----------------------------------------------------------------------------------------
-- Options that lines open
-----------------------------------------------------------------------------------------

namespace Line

/-- A line that opens the block of an option states that option if it states a node at all. -/
theorem States.presents {lines : List Line} {declared : List String} {index : Nat} {line : Line}
    {node : Node} {name : String} (states : States lines declared index line node)
    (heads : line.Heads name)
    : ∃ choices, node = .beat (.option name choices) := by
  have tellsOption : line.Tells (.option name) := .option heads
  cases states with
  | beat tells shows =>
      obtain rfl := tells.unique tellsOption
      nomatch shows
  | option tells closes =>
      obtain rfl := Statement.option.inj (tells.unique tellsOption)
      exact ⟨_, rfl⟩
  | choices tells => nomatch tells.unique tellsOption
  | ending tells => nomatch tells.unique tellsOption

/-- A line that states an option opens the block of that option. -/
theorem States.heads {lines : List Line} {declared : List String} {index : Nat} {line : Line}
    {name : String} {choices : List String}
    (states : States lines declared index line (.beat (.option name choices)))
    : line.Heads name := by
  generalize same : Node.beat (.option name choices) = node at states
  cases states with
  | @beat statement _ _ shows =>
      obtain rfl := Node.beat.inj same
      cases statement <;> nomatch shows
  | option tells =>
      obtain ⟨rfl, -⟩ := Beat.option.inj (Node.beat.inj same)
      cases tells with
      | option heads => exact heads
  | choices | ending => nomatch same

theorem Numbered.eq_of_number_eq {lines : List Line} (numbered : Numbered lines)
    {left right : Line} (leftIn : left ∈ lines) (rightIn : right ∈ lines)
    (same : left.number = right.number)
    : left = right := by
  have distinct : (lines.map number).Nodup := (List.pairwise_cons.mp numbered).2.imp Nat.ne_of_lt
  exact List.inj_on_of_nodup_map distinct leftIn rightIn same

end Line

theorem Graph.Presents.sourced {graph : Graph} {name : String} {id : Nat}
    (presents : graph.Presents name id)
    : id ∈ graph.sourced := by
  obtain ⟨choices, found⟩ := presents
  exact mem_sourced_of_node (Or.inl ⟨_, found⟩)

/-- A slot that comes from a line presents an option if the line opens the block of the option. -/
theorem Graph.presents_iff_heads {graph : Graph} {lines : List Line} {declared : List String}
    (numbered : Line.Numbered lines) {id : Nat}
    (stated : Line.Stated lines declared (graph.line id) (graph.node id)) {name : String}
    : graph.Presents name id
      ↔ ∃ opening ∈ lines, opening.Heads name ∧ opening.number = graph.line id := by
  obtain ⟨index, line, here, number, states⟩ := stated
  have member := List.mem_of_getElem? here
  constructor
  · rintro ⟨choices, found⟩
    rw [found] at states
    exact ⟨line, member, states.heads, number⟩
  · rintro ⟨opening, openingIn, heads, same⟩
    obtain rfl := numbered.eq_of_number_eq member openingIn (number.trans same.symm)
    exact states.presents heads

-----------------------------------------------------------------------------------------
-- Options that are never presented
-----------------------------------------------------------------------------------------

/-- A slot cannot be reached if it presents an option that the dialogue never presents. -/
theorem Graph.Presents.unreachable {graph : Graph} {name : String} {id : Nat}
    (presents : graph.Presents name id) (unpresented : name ∉ graph.optionNames)
    : id ∈ graph.unreachable := by
  have unreached : id ∉ graph.reachable :=
    fun reached => unpresented (mem_optionNames_iff.mpr ⟨id, reached, presents⟩)
  obtain ⟨choices, found⟩ := presents
  exact mem_unreachable_iff.mpr ⟨unreached, by rw [found]; rfl, by rw [found]; exact nofun⟩

/-- An option that the dialogue never presents is never declared, so no guard holds that asks about
it.
-/
theorem Engine.Visits.unpresented {graph : Graph} (inRange : graph.InRange) {engine : Engine}
    (visits : Visits graph engine) {guard : Guard} (unpresented : guard.option ∉ graph.optionNames)
    : engine.memory.isDeclared guard.option = false
      ∧ engine.memory.satisfies guard = false := by
  have undeclared : engine.memory.isDeclared guard.option = false := by
    refine Bool.eq_false_iff.mpr fun declared => unpresented ?_
    rw [Graph.mem_optionNames_iff, ← mem_names_start_iff, ← visits.names inRange]
    exact Memory.mem_names_iff.mpr declared
  have noEntry : engine.memory.entry? guard.option = none := by
    simpa [Memory.isDeclared] using undeclared
  exact ⟨undeclared, by rw [Memory.satisfies, noEntry]⟩

namespace Lint

theorem mem_check_of_unreachable {graph : Graph} {id : Nat} (lost : id ∈ graph.unreachable)
    : unreachableNode (graph.line id) (graph.node id) ∈ (check {} graph).issues := by
  have warned := mem_unreachableNodes_iff.mpr ⟨id, lost, rfl⟩
  rw [← @warnings_findings {} rfl rfl graph] at warned
  exact mem_check_iff.mpr (List.mem_filter.mp warned).1

/-- A report has an issue that is more than an info if some slot cannot be reached or some guard
asks for too much, and not otherwise.
-/
theorem exists_serious_iff {graph : Graph}
    : (∃ issue ∈ (check {} graph).issues, issue.severity = .warning ∨ issue.severity = .error)
      ↔ (∃ id, id ∈ graph.unreachable) ∨ ∃ issue, issue ∈ impossibleGuards graph := by
  constructor
  · rintro ⟨issue, reported, serious⟩
    rcases findings_cases (mem_check_iff.mp reported) with
      redefined | impossible | unreachable | unused
    · rw [severity_redefinitions redefined] at serious
      exact absurd serious (by simp)
    · exact Or.inr ⟨issue, impossible⟩
    · obtain ⟨id, lost, -⟩ := mem_unreachableNodes_iff.mp unreachable
      exact Or.inl ⟨id, lost⟩
    · rw [severity_unusedOptions unused] at serious
      exact absurd serious (by simp)
  · rintro (⟨id, lost⟩ | ⟨issue, impossible⟩)
    · exact ⟨_, mem_check_of_unreachable lost, Or.inl rfl⟩
    · refine ⟨issue, mem_check_iff.mpr ?_, Or.inr (severity_impossibleGuards impossible)⟩
      simp [findings, impossible]

end Lint

-----------------------------------------------------------------------------------------
-- Two scripts that ask in vain
-----------------------------------------------------------------------------------------

namespace Script

/-- A script that asks about an option in front of all its blocks. The first of these comes too late
to be reached, and the second one is left out.
-/
def tooLate : List String :=
  ["<choices>", "<pick,1>", "<END>", "</>", "<option>pick", "<a>A", "</>", "<END>", "<option>pick",
    "<b>B", "</>"]

def tooLateGraph : Graph where
  slots :=
    [⟨.start, 0, [1]⟩, ⟨.choice [⟨"pick", 1⟩], 1, [2]⟩, ⟨.ending, 3, []⟩,
      ⟨.beat (.option "pick" ["A"]), 5, [4]⟩, ⟨.ending, 8, []⟩]
  root := 0

theorem compile_tooLate : (compile tooLate).outcome = .ok tooLateGraph := by
  decide +kernel

/-- A script that asks about an option whose only block is left out. -/
def leftOut : List String :=
  ["<choices>", "<pick,1>", "<A>Hello", "</>", "<END>", "<option>pick", "<a>A", "</>"]

def leftOutGraph : Graph where
  slots :=
    [⟨.start, 0, [1]⟩, ⟨.choice [⟨"pick", 1⟩], 1, [2]⟩, ⟨.beat (.say "A" "Hello"), 3, [4]⟩,
      ⟨.dead, 3, [4]⟩, ⟨.ending, 5, []⟩]
  root := 0

theorem compile_leftOut : (compile leftOut).outcome = .ok leftOutGraph := by
  decide +kernel

end Script

-----------------------------------------------------------------------------------------
-- Main statement
-----------------------------------------------------------------------------------------

/-- A guard that the dialogue can get to, and that asks about an option which it never presents,
never holds. Lines of the script open blocks for the option, and a lint report warns of those that
were compiled to a slot. So the report has a warning or an error if there is such a line, or else if
something other than the option gives rise to one.
-/
theorem Lint.unpresented_guard {texts : List String} {graph : Graph}
    (h : (Script.compile texts).outcome = .ok graph) {line : Nat} {guard : Guard}
    (guarded : (line, guard) ∈ graph.guardsByLine) (unpresented : guard.option ∉ graph.optionNames)
    : ∃ lines,
        Line.decodeAll (((texts.map Script.trimmed).zipIdx 1).map Prod.swap) = .ok lines
        ∧ (∃ opening ∈ lines, opening.Heads guard.option)
        ∧ (∀ opening ∈ lines,
            opening.Heads guard.option
            → opening.number ∈ graph.sourced.map graph.line
            → ∃ choices,
                unreachableNode opening.number (.beat (.option guard.option choices))
                  ∈ (check {} graph).issues)
        ∧ ((∃ issue ∈ (check {} graph).issues,
              issue.severity = .warning ∨ issue.severity = .error)
            ↔ (∃ opening ∈ lines,
                opening.Heads guard.option ∧ opening.number ∈ graph.sourced.map graph.line)
              ∨ (∃ id ∈ graph.unreachable, ¬ graph.Presents guard.option id)
              ∨ ∃ issue, issue ∈ impossibleGuards graph)
        ∧ ∀ engine,
            Visits graph engine
            → engine.memory.isDeclared guard.option = false
              ∧ engine.memory.satisfies guard = false := by
  have compiled : Script.Compiled graph := .lines h
  obtain ⟨lines, declared, decoded, numbered, names, stated⟩ := Script.stated_of_compile h
  have asked : guard.option ∈ declared := by
    obtain ⟨id, -, guards, found, member, -⟩ := Graph.mem_guardsByLine_iff.mp guarded
    exact Graph.option_mem_of_stated stated found guard member
  refine ⟨lines, decoded, (Line.mem_iff_of_optionNames names).mp asked, ?_, ?_,
    fun engine visits => visits.unpresented compiled.inRange unpresented⟩
  · intro opening member heads fromLine
    obtain ⟨id, sourced, same⟩ := List.mem_map.mp fromLine
    have presents := (Graph.presents_iff_heads numbered (stated id sourced)).mpr
      ⟨opening, member, heads, same.symm⟩
    have warned := mem_check_of_unreachable (presents.unreachable unpresented)
    obtain ⟨choices, found⟩ := presents
    rw [found, same] at warned
    exact ⟨choices, warned⟩
  · rw [exists_serious_iff, ← or_assoc]
    refine or_congr_left ⟨?_, ?_⟩
    · rintro ⟨id, unreached⟩
      by_cases presents : graph.Presents guard.option id
      · obtain ⟨opening, member, heads, same⟩ :=
          (Graph.presents_iff_heads numbered (stated id presents.sourced)).mp presents
        exact Or.inl ⟨opening, member, heads, List.mem_map.mpr ⟨id, presents.sourced, same.symm⟩⟩
      · exact Or.inr ⟨id, unreached, presents⟩
    · rintro (⟨opening, member, heads, fromLine⟩ | ⟨id, unreached, -⟩)
      · obtain ⟨id, sourced, same⟩ := List.mem_map.mp fromLine
        have presents := (Graph.presents_iff_heads numbered (stated id sourced)).mpr
          ⟨opening, member, heads, same.symm⟩
        exact ⟨id, presents.unreachable unpresented⟩
      · exact ⟨id, unreached⟩

/-- Where the first block of the option comes too late, the report warns of it, and says nothing of
the block that is left out.
-/
theorem Lint.tooLate_warned
    : (Script.compile Script.tooLate).outcome = .ok Script.tooLateGraph
      ∧ (1, ⟨"pick", 1⟩) ∈ Script.tooLateGraph.guardsByLine
      ∧ "pick" ∉ Script.tooLateGraph.optionNames
      ∧ (∃ choices,
          unreachableNode 5 (.beat (.option "pick" choices))
            ∈ (check {} Script.tooLateGraph).issues)
      ∧ 9 ∉ Script.tooLateGraph.sourced.map Script.tooLateGraph.line
      ∧ ∃ issue ∈ (check {} Script.tooLateGraph).issues,
          issue.severity = .warning ∨ issue.severity = .error := by
  have guarded : (1, ⟨"pick", 1⟩) ∈ Script.tooLateGraph.guardsByLine := by decide +kernel
  have unpresented : "pick" ∉ Script.tooLateGraph.optionNames := by decide +kernel
  have sourced : Script.tooLateGraph.sourced.map Script.tooLateGraph.line = [1, 3, 5, 8] := by
    decide +kernel
  obtain ⟨lines, decoded, -, warned, serious, -⟩ :=
    unpresented_guard Script.compile_tooLate guarded unpresented
  have read : Line.decodeAll (((Script.tooLate.map Script.trimmed).zipIdx 1).map Prod.swap)
      = .ok [⟨1, ["choices"], ""⟩, ⟨2, ["pick,1"], ""⟩, ⟨3, ["END"], ""⟩, ⟨4, ["/"], ""⟩,
          ⟨5, ["option"], "pick"⟩, ⟨6, ["a"], "A"⟩, ⟨7, ["/"], ""⟩, ⟨8, ["END"], ""⟩,
          ⟨9, ["option"], "pick"⟩, ⟨10, ["b"], "B"⟩, ⟨11, ["/"], ""⟩] := by
    decide +kernel
  obtain rfl := Except.ok.inj (decoded.symm.trans read)
  have heads : (⟨5, ["option"], "pick"⟩ : Line).Heads "pick" := Or.inl ⟨rfl, rfl, by decide⟩
  have fromLine : 5 ∈ Script.tooLateGraph.sourced.map Script.tooLateGraph.line := by simp [sourced]
  refine ⟨Script.compile_tooLate, guarded, unpresented,
    warned ⟨5, ["option"], "pick"⟩ (by simp) heads fromLine, by simp [sourced], ?_⟩
  exact serious.mpr (Or.inl ⟨⟨5, ["option"], "pick"⟩, by simp, heads, fromLine⟩)

/-- Where the only block of the option is left out, the report has no issue at all, although the
dialogue gets to the guard and never presents the option.
-/
theorem Lint.leftOut_unheard
    : (Script.compile Script.leftOut).outcome = .ok Script.leftOutGraph
      ∧ (1, ⟨"pick", 1⟩) ∈ Script.leftOutGraph.guardsByLine
      ∧ "pick" ∉ Script.leftOutGraph.optionNames
      ∧ (check {} Script.leftOutGraph).issues = [] :=
  ⟨Script.compile_leftOut, by decide +kernel, by decide +kernel, by decide +kernel⟩

end Dialogue
