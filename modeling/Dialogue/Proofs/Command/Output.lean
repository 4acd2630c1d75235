import Dialogue.Command.Action
import Dialogue.Proofs.Lint.Findings
import Dialogue.Proofs.Play.Progress
import Dialogue.Proofs.Script.LineFeeds

/-! What is printed as text has one line for each step, slot or issue, because nothing that is shown
holds a line feed.
-/

namespace Dialogue

-----------------------------------------------------------------------------------------
-- Texts without line feeds
-----------------------------------------------------------------------------------------

@[simp] theorem oneLine_append {left right : String}
    : OneLine (left ++ right) ↔ OneLine left ∧ OneLine right := by
  simp [OneLine]

@[simp] theorem oneLine_repr (number : Nat) : OneLine number.repr := by
  intro member
  cases Text.isDigit_of_mem_toString member

theorem oneLine_intercalate {separator : String} {texts : List String}
    (separates : OneLine separator) (single : ∀ text ∈ texts, OneLine text)
    : OneLine (String.intercalate separator texts) := by
  rw [OneLine, String.toList_intercalate]
  induction texts with
  | nil => exact List.not_mem_nil
  | cons text rest ih =>
      obtain ⟨first, later⟩ := List.forall_mem_cons.mp single
      cases rest with
      | nil => simpa [OneLine] using first
      | cons next others =>
          rw [List.map_cons, List.map_cons, List.intercalate_cons_cons, ← List.map_cons,
            List.mem_append, List.mem_append, not_or, not_or]
          exact ⟨⟨first, separates⟩, ih later⟩

/-- The output is these lines, each with a line feed at its end: the line feeds divide it into them
and an empty rest.
-/
def HasLines (output : String) (lines : List String) : Prop :=
  Text.split '\n' output.toList = lines.map String.toList ++ [[]]

/-- Texts without line feeds are the lines of what they are joined to, by induction on them. -/
theorem hasLines_join {lines : List String} (single : ∀ line ∈ lines, OneLine line)
    : HasLines (String.join (lines.map fun line => line ++ "\n")) lines := by
  unfold HasLines
  rw [String.toList_join, List.flatMap_map]
  induction lines with
  | nil => rfl
  | cons line rest ih =>
      obtain ⟨first, later⟩ := List.forall_mem_cons.mp single
      rw [List.flatMap_cons, String.toList_append, List.append_assoc]
      exact (Text.split_append first).trans (congrArg _ (ih later))

-----------------------------------------------------------------------------------------
-- Nodes and steps
-----------------------------------------------------------------------------------------

/-- All texts that a step shows. -/
def Step.texts (step : Step) : List String :=
  step.name :: step.content :: step.choices

theorem Beat.oneLine_details {shown : Beat} (single : ∀ text ∈ shown.texts, OneLine text)
    : OneLine shown.details := by
  cases shown with
  | scene content => simpa +decide [details, texts] using single
  | option name choices =>
      obtain ⟨named, offered⟩ := List.forall_mem_cons.mp single
      have joined := oneLine_intercalate (by decide : OneLine "; ") offered
      simpa +decide [details] using And.intro named joined
  | say speaker content | think speaker content => simpa +decide [details, texts] using single

theorem Beat.oneLine_kind (shown : Beat) : OneLine shown.kind := by
  cases shown <;> simp +decide [kind]

theorem Node.oneLine_kind (node : Node) : OneLine node.kind := by
  cases node with
  | beat shown => exact shown.oneLine_kind
  | start | ending | choice _ | dead | empty => simp +decide [kind]

/-- A node whose texts have no line feed is shown in one line, by cases on its kind. -/
theorem Node.oneLine_render {node : Node} (single : ∀ text ∈ node.texts, OneLine text)
    : OneLine node.render := by
  have kind := node.oneLine_kind
  cases node with
  | beat shown => exact oneLine_append.mpr ⟨kind, Beat.oneLine_details single⟩
  | choice guards =>
      have shown : ∀ text ∈ guards.map Guard.render, OneLine text := by
        refine List.forall_mem_map.mpr fun guard guarded => ?_
        have asked := List.forall_mem_map.mp single guard guarded
        simpa +decide [Guard.render] using asked
      have joined := oneLine_intercalate (by decide : OneLine "; ") shown
      exact oneLine_append.mpr ⟨oneLine_append.mpr ⟨kind, by decide⟩, joined⟩
  | start | ending | dead | empty => decide

theorem Graph.oneLine_renderSlot {graph : Graph} {id : Nat}
    (single : ∀ text ∈ (graph.node id).texts, OneLine text)
    : OneLine (graph.renderSlot id) := by
  have successors
      : ∀ text ∈ (graph.next id).map fun successor => "#" ++ toString successor, OneLine text :=
    List.forall_mem_map.mpr fun successor _ => by simp +decide
  have joined := oneLine_intercalate (by decide : OneLine ", ") successors
  simpa +decide [renderSlot, Node.oneLine_render single] using joined

/-- A step shows the texts of its node, the choices of an option also joined. -/
theorem Step.oneLine_of_step? {node : Node} {step : Step} (presents : node.step? = some step)
    (single : ∀ text ∈ node.texts, OneLine text)
    : ∀ text ∈ step.texts, OneLine text := by
  have blank : OneLine "" := by decide
  rcases Node.step?_eq_some presents with ⟨shown, rfl, rfl⟩ | ⟨rfl, rfl⟩
  · cases shown with
    | scene content => exact List.forall_mem_cons.mpr ⟨blank, single⟩
    | option name choices =>
        obtain ⟨named, offered⟩ := List.forall_mem_cons.mp single
        have joined := oneLine_intercalate (by decide : OneLine "; ") offered
        exact List.forall_mem_cons.mpr ⟨named, List.forall_mem_cons.mpr ⟨joined, offered⟩⟩
    | say speaker content | think speaker content => exact single
  · exact List.forall_mem_cons.mpr ⟨blank, List.forall_mem_singleton.mpr blank⟩

theorem Step.oneLine_render {step : Step} (single : ∀ text ∈ step.texts, OneLine text)
    : OneLine step.render := by
  have kind : OneLine step.kind := by
    cases step with
    | beat shown => exact shown.oneLine_kind
    | ending => simp +decide
  obtain ⟨named, single⟩ := List.forall_mem_cons.mp single
  obtain ⟨content, offered⟩ := List.forall_mem_cons.mp single
  have joined := oneLine_intercalate (by decide : OneLine " ; ") offered
  unfold render
  simp +decide [kind, named, content, joined]

-----------------------------------------------------------------------------------------
-- Issues
-----------------------------------------------------------------------------------------

namespace Lint

/-- The last line of a report as text: how many nodes the dialogue can reach, and the tallies. -/
def Report.summary (graph : Graph) (report : Report) : String :=
  toString graph.reachable.length ++ " nodes, " ++ toString report.errors ++ " errors, "
    ++ toString report.warnings ++ " warnings, " ++ toString report.infos ++ " info"

theorem Report.oneLine_summary (graph : Graph) (report : Report)
    : OneLine (report.summary graph) := by
  simp +decide [summary]

variable {graph : Graph} (single : ∀ id, ∀ text ∈ (graph.node id).texts, OneLine text)

include single

theorem oneLine_definition {definition : Definition} (member : definition ∈ graph.definitions)
    : OneLine definition.name := by
  obtain ⟨id, -, choices, found, -⟩ := Graph.mem_definitions_iff.mp member
  have texts := single id
  rw [found] at texts
  exact texts _ List.mem_cons_self

theorem oneLine_guard {line : Nat} {guard : Guard} (member : (line, guard) ∈ graph.guardsByLine)
    : OneLine guard.option := by
  obtain ⟨id, -, guards, found, guarded, -⟩ := Graph.mem_guardsByLine_iff.mp member
  have texts := single id
  rw [found] at texts
  exact texts _ (List.mem_map_of_mem guarded)

/-- An issue tells of names and nodes of the graph, by cases on the checks. -/
theorem oneLine_issue {config : Config} {issue : Issue}
    (reported : issue ∈ (check config graph).issues)
    : OneLine issue.message ∧ OneLine issue.category := by
  rcases findings_cases (mem_check_iff.mp reported) with
    redefined | impossible | unreachable | unused
  · obtain ⟨first, further, member, rfl⟩ := exists_redefinition_of_mem redefined
    simp +decide [redefinition, oneLine_definition single member]
  · obtain ⟨line, guard, first, member, -, -, rfl⟩ := mem_impossibleGuards_iff.mp impossible
    simp +decide [impossibleGuard, Guard.render, oneLine_guard single member]
  · obtain ⟨id, -, rfl⟩ := mem_unreachableNodes_iff.mp unreachable
    have shown := Node.oneLine_render (single id)
    simp +decide [unreachableNode, (graph.node id).oneLine_kind, shown]
  · obtain ⟨definition, first, rfl, -⟩ := mem_unusedOptions unused
    have member := List.mem_of_find?_eq_some first
    simp +decide [unusedOption, oneLine_definition single member]

theorem oneLine_render {config : Config} {issue : Issue}
    (reported : issue ∈ (check config graph).issues)
    : OneLine issue.render := by
  obtain ⟨message, category⟩ := oneLine_issue single reported
  have severity : OneLine issue.severity.word := by cases issue.severity <;> decide
  simp +decide [Issue.render, severity, category, message]

end Lint

-----------------------------------------------------------------------------------------
-- Main statement
-----------------------------------------------------------------------------------------

namespace Command

/-- A report as text is the lines of its issues and a last line. -/
theorem renderReport_eq (graph : Graph) (report : Lint.Report)
    : renderReport graph report
      = String.join ((report.issues.map Lint.Issue.render ++ [report.summary graph]).map
          fun line => line ++ "\n") := by
  apply String.toList_injective
  simp [renderReport, Lint.Report.summary, String.toList_join, List.flatMap_map]

theorem compile_of_compileText {source : String} {graph : Graph}
    (h : (Script.compileText source).outcome = .ok graph)
    : (compile source).outcome = .ok graph := by
  rw [compile, Logged.mapError, h]
  rfl

section

variable {source : String} {graph : Graph} (compiled : (compile source).outcome = .ok graph)

include compiled

theorem outcome_play {answers : List Nat} (complete : (graph.play answers).ending = .complete)
    : (play source answers false).outcome = .ok (renderSteps (graph.play answers).steps) := by
  rw [play, Logged.outcome_bind, compiled]
  show (Logged.report (graph.play answers).events >>= fun _ => _ : Logged _ _).outcome = _
  rw [Logged.outcome_report_bind, complete]
  rfl

theorem outcome_check (config : Lint.Config)
    : (check source config).outcome
      = .ok (Lint.check config graph, renderReport graph (Lint.check config graph)) := by
  rw [check, Logged.outcome_bind, compiled]
  rfl

theorem outcome_graph : (Command.graph source).outcome = .ok graph.render := by
  rw [Command.graph, Logged.outcome_map, compiled]
  rfl

end

end Command

-----------------------------------------------------------------------------------------
-- Main statement
-----------------------------------------------------------------------------------------

/-- For a text that compiles, what is printed has the steps of the playthrough, the slots that can
be reached, or the issues and a last line as its lines, each closed by a line feed. No text of a
node, of a step that an engine presents or of an issue's message has a line feed itself.
-/
theorem Command.output_lines {source : String} {graph : Graph}
    (h : (Script.compileText source).outcome = .ok graph)
    : (∀ answers,
        (graph.play answers).ending = .complete
        → ∃ output,
            (play source answers false).outcome = .ok output
            ∧ HasLines output ((graph.play answers).steps.map Step.render))
      ∧ (∃ output,
          (Command.graph source).outcome = .ok output
          ∧ HasLines output (graph.reachable.map graph.renderSlot))
      ∧ (∀ config,
          ∃ output,
            (check source config).outcome = .ok (Lint.check config graph, output)
            ∧ HasLines output
                ((Lint.check config graph).issues.map Lint.Issue.render
                  ++ [(Lint.check config graph).summary graph]))
      ∧ (∀ id, ∀ text ∈ (graph.node id).texts, OneLine text)
      ∧ (∀ engine step onward,
          Engine.Visits graph engine
          → engine.advance = (.ok (some step), onward)
          → ∀ text ∈ step.texts, OneLine text)
      ∧ ∀ config, ∀ issue ∈ (Lint.check config graph).issues, OneLine issue.message := by
  have compiled : Script.Compiled graph := .text h
  have done := compile_of_compileText h
  have single := Script.oneLine_of_compileText h
  refine ⟨fun answers complete => ?_, ?_, fun config => ?_, single, ?_, ?_⟩
  · refine ⟨_, outcome_play done complete, ?_⟩
    obtain ⟨trace, ending, last, plays, surfaces, -⟩ :=
      (Engine.onTrack_start compiled).exists_run compiled rfl answers
    have lines : ∀ line ∈ (graph.play answers).steps.map Step.render, OneLine line := by
      rw [(plays.gives_play compiled).1, List.map_map]
      refine List.forall_mem_map.mpr fun entry shown => Step.oneLine_render ?_
      exact Step.oneLine_of_step? (surfaces.shows entry shown).2 (single entry.1)
    have output := hasLines_join lines
    rwa [List.map_map] at output
  · refine ⟨_, outcome_graph done, ?_⟩
    have lines : ∀ line ∈ graph.reachable.map graph.renderSlot, OneLine line :=
      List.forall_mem_map.mpr fun id _ => Graph.oneLine_renderSlot (single id)
    have output := hasLines_join lines
    rwa [List.map_map] at output
  · refine ⟨_, outcome_check done config, ?_⟩
    rw [renderReport_eq]
    refine hasLines_join (List.forall_mem_append.mpr ⟨?_, ?_⟩)
    · exact List.forall_mem_map.mpr fun issue reported => Lint.oneLine_render single reported
    · exact List.forall_mem_singleton.mpr (Lint.Report.oneLine_summary graph _)
  · intro engine step onward visits goes
    rcases (visits.onTrack compiled).advance_cases compiled with
      ⟨prompt, -, other⟩ | ⟨-, -, other⟩ | ⟨target, found, -, -, presents, -, -, other⟩
    · cases goes.symm.trans other
    · cases goes.symm.trans other
    · obtain ⟨same, -⟩ := Prod.mk.inj (goes.symm.trans other)
      obtain rfl := Option.some.inj (Except.ok.inj same)
      exact Step.oneLine_of_step? presents (single target)
  · exact fun config issue reported => (Lint.oneLine_issue single reported).1

/-- A dialogue that asks for one option and ends. -/
def Command.ask : String :=
  "<option>pick\n<a>A\n<b>B\n</>\n<END>"

/-- The graph of the dialogue with one option. -/
def Command.askGraph : Graph where
  slots :=
    [⟨.start, 0, [1]⟩, ⟨.beat (.option "pick" ["A", "B"]), 1, [2]⟩, ⟨.ending, 5, []⟩]
  root := 0

/-- The dialogue with one option, answered with the second choice: two lines are printed for its
steps, three for its graph, and two for its check.
-/
theorem Command.ask_lines
    : (Script.compileText ask).outcome = .ok askGraph
      ∧ (∃ output,
          (play ask [1] false).outcome = .ok output
          ∧ HasLines output
              ["type: option | name: pick | content: A; B | choices: A ; B",
                "type: end | name:  | content:  | choices: "])
      ∧ (∃ output,
          (Command.graph ask).outcome = .ok output
          ∧ HasLines output
              ["#0 (line 0): start | | -> [#1]", "#1 (line 1): option | pick | A; B -> [#2]",
                "#2 (line 5): end | | -> []"])
      ∧ ∃ report output,
          (check ask {}).outcome = .ok (report, output)
          ∧ HasLines output
              ["info[flow] line 1: Option 'pick' is never used by a choices block",
                "3 nodes, 0 errors, 0 warnings, 1 info"] := by
  have compiled : (Script.compileText ask).outcome = .ok askGraph := by decide +kernel
  obtain ⟨played, drawn, checked, -⟩ := output_lines compiled
  have steps
      : (askGraph.play [1]).steps.map Step.render
        = ["type: option | name: pick | content: A; B | choices: A ; B",
            "type: end | name:  | content:  | choices: "] := by
    decide +kernel
  have slots
      : askGraph.reachable.map askGraph.renderSlot
        = ["#0 (line 0): start | | -> [#1]", "#1 (line 1): option | pick | A; B -> [#2]",
            "#2 (line 5): end | | -> []"] := by
    decide +kernel
  have issues
      : (Lint.check {} askGraph).issues.map Lint.Issue.render
          ++ [(Lint.check {} askGraph).summary askGraph]
        = ["info[flow] line 1: Option 'pick' is never used by a choices block",
            "3 nodes, 0 errors, 0 warnings, 1 info"] := by
    decide +kernel
  refine ⟨compiled, ?_, slots ▸ drawn, _, issues ▸ checked {}⟩
  exact steps ▸ played [1] (by decide +kernel)

end Dialogue
