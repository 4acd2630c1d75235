import Dialogue.Lint.Check
import Dialogue.Proofs.Graph.Splicing

/-! What a lint report holds: which issues it has, and which check an issue of it comes from. -/

namespace Dialogue

namespace Graph

theorem mem_definitions_iff {graph : Graph} {definition : Definition}
    : definition ∈ graph.definitions
      ↔ ∃ id ∈ graph.reachable,
          ∃ choices,
            graph.node id = .beat (.option definition.name choices)
            ∧ definition.choices = choices.length
            ∧ definition.line = graph.line id := by
  obtain ⟨name, many, line⟩ := definition
  unfold Graph.definitions
  rw [List.mem_filterMap]
  refine exists_congr fun id => and_congr_right fun _ => ?_
  split
  · next other choices found => simp [found, eq_comm, and_assoc]
  · next plain =>
      refine iff_of_false nofun ?_
      rintro ⟨choices, found, -⟩
      exact plain name choices found

theorem mem_guardsByLine_iff {graph : Graph} {line : Nat} {guard : Guard}
    : (line, guard) ∈ graph.guardsByLine
      ↔ ∃ id ∈ graph.reachable,
          ∃ guards,
            graph.node id = .choice guards
            ∧ guard ∈ guards
            ∧ graph.line id = line := by
  unfold Graph.guardsByLine
  rw [List.mem_flatMap]
  refine exists_congr fun id => and_congr_right fun _ => ?_
  split
  · next guards found =>
      simp only [found, List.mem_map, Prod.mk.injEq, Node.choice.injEq, exists_eq_left']
      constructor
      · rintro ⟨_, member, line, rfl⟩
        exact ⟨member, line⟩
      · rintro ⟨member, line⟩
        exact ⟨guard, member, line, rfl⟩
  · next plain =>
      refine iff_of_false (List.not_mem_nil) ?_
      rintro ⟨guards, found, -⟩
      exact plain guards found

/-- Whether a slot is kept although it cannot be reached. The start is left aside. -/
def isUnreachable (graph : Graph) (id : Nat) : Bool :=
  !graph.reachable.contains id && !(graph.node id).isPlaceholder && graph.node id ≠ .start

/-- The slots that are kept although they cannot be reached, in order. -/
def unreachable (graph : Graph) : List Nat :=
  graph.ids.filter graph.isUnreachable

theorem mem_unreachable_iff {graph : Graph} {id : Nat}
    : id ∈ graph.unreachable
      ↔ id ∉ graph.reachable
        ∧ (graph.node id).isPlaceholder = false
        ∧ graph.node id ≠ .start := by
  have inside : (graph.node id).isPlaceholder = false → id ∈ graph.ids :=
    fun kept => List.mem_range.mpr (lt_size_of_not_placeholder kept)
  unfold unreachable isUnreachable
  simp only [List.mem_filter, Bool.and_eq_true, decide_eq_true_iff, Bool.not_eq_true',
    List.contains_eq_mem, decide_eq_false_iff_not, and_assoc]
  tauto

end Graph

namespace Lint

-----------------------------------------------------------------------------------------
-- Reports
-----------------------------------------------------------------------------------------

theorem perm_insertByLine (issue : Issue) (issues : List Issue)
    : (insertByLine issue issues).Perm (issue :: issues) := by
  induction issues with
  | nil => exact .refl _
  | cons other rest ih =>
      unfold insertByLine
      split
      · exact .refl _
      · exact (ih.cons other).trans (.swap issue other rest)

/-- Sorting keeps every issue, by induction on the issues. -/
theorem perm_sortByLine (issues : List Issue) : (sortByLine issues).Perm issues := by
  induction issues with
  | nil => exact .nil
  | cons issue rest ih => exact (perm_insertByLine issue (sortByLine rest)).trans (ih.cons issue)

theorem pairwise_insertByLine (issue : Issue) {issues : List Issue}
    (ordered : issues.Pairwise fun earlier later => earlier.line ≤ later.line)
    : (insertByLine issue issues).Pairwise fun earlier later => earlier.line ≤ later.line := by
  induction issues with
  | nil => exact List.pairwise_singleton _ _
  | cons other rest ih =>
      obtain ⟨first, orderedRest⟩ := List.pairwise_cons.mp ordered
      unfold insertByLine
      split
      · next before =>
          refine List.pairwise_cons.mpr ⟨?_, ordered⟩
          exact List.forall_mem_cons.mpr
            ⟨before, fun later member => Nat.le_trans before (first later member)⟩
      · next after =>
          refine List.pairwise_cons.mpr ⟨fun later member => ?_, ih orderedRest⟩
          rcases List.mem_cons.mp ((perm_insertByLine issue rest).mem_iff.mp member) with
            rfl | member
          · exact Nat.le_of_not_le after
          · exact first later member

/-- Sorting puts the issues in the order of their lines, by induction on the issues. -/
theorem pairwise_sortByLine (issues : List Issue)
    : (sortByLine issues).Pairwise fun earlier later => earlier.line ≤ later.line := by
  induction issues with
  | nil => exact .nil
  | cons issue rest ih => exact pairwise_insertByLine issue ih

theorem Report.issues_add (report : Report) (issue : Issue)
    : (report.add issue).issues = report.issues ++ [issue] := by
  unfold Report.add
  split <;> rfl

theorem Report.issues_foldl_add (report : Report) (issues : List Issue)
    : (issues.foldl Report.add report).issues = report.issues ++ issues := by
  induction issues generalizing report with
  | nil => simp
  | cons issue rest ih => simp [ih, Report.issues_add]

theorem issues_check (config : Config) (graph : Graph)
    : (check config graph).issues = sortByLine (findings config graph) :=
  congrArg sortByLine (Report.issues_foldl_add .empty _)

/-- A report has the issues that the checks find. -/
theorem mem_check_iff {config : Config} {graph : Graph} {issue : Issue}
    : issue ∈ (check config graph).issues ↔ issue ∈ findings config graph := by
  rw [issues_check, (perm_sortByLine _).mem_iff]

-----------------------------------------------------------------------------------------
-- Checks
-----------------------------------------------------------------------------------------

/-- What the look for redefinitions finds is about one of the option blocks, by induction on them.
-/
theorem exists_redefinition_of_mem {firsts definitions : List Definition} {issue : Issue}
    (found : issue ∈ redefinitionsAfter firsts definitions)
    : ∃ first, ∃ further ∈ definitions, issue = redefinition first further := by
  induction definitions generalizing firsts with
  | nil => cases found
  | cons definition rest ih =>
      have later {firsts : List Definition} (found : issue ∈ redefinitionsAfter firsts rest)
          : ∃ first, ∃ further ∈ definition :: rest, issue = redefinition first further := by
        obtain ⟨first, further, member, same⟩ := ih found
        exact ⟨first, further, List.mem_cons_of_mem _ member, same⟩
      unfold redefinitionsAfter at found
      split at found
      · rcases List.mem_cons.mp found with rfl | found
        · exact ⟨_, definition, List.mem_cons_self, rfl⟩
        · exact later found
      · exact later found

theorem mem_impossibleGuards_iff {graph : Graph} {issue : Issue}
    : issue ∈ impossibleGuards graph
      ↔ ∃ line guard first,
          (line, guard) ∈ graph.guardsByLine
          ∧ Definition.first? graph.definitions guard.option = some first
          ∧ first.choices < guard.threshold
          ∧ issue = impossibleGuard line guard first.choices := by
  unfold impossibleGuards
  simp only [List.mem_filterMap, Prod.exists]
  refine exists_congr fun line => exists_congr fun guard => ?_
  cases Definition.first? graph.definitions guard.option with
  | none => simp
  | some first => simp [eq_comm]

theorem unreachableNodes_eq_map (graph : Graph)
    : unreachableNodes graph
      = graph.unreachable.map fun id => unreachableNode (graph.line id) (graph.node id) :=
  rfl

theorem mem_unreachableNodes_iff {graph : Graph} {issue : Issue}
    : issue ∈ unreachableNodes graph
      ↔ ∃ id ∈ graph.unreachable, issue = unreachableNode (graph.line id) (graph.node id) := by
  simp [unreachableNodes_eq_map, eq_comm]

theorem mem_unusedOptions {graph : Graph} {issue : Issue} (found : issue ∈ unusedOptions graph)
    : ∃ definition,
        Definition.first? graph.definitions definition.name = some definition
        ∧ issue = unusedOption definition
        ∧ ∀ entry ∈ graph.guardsByLine, entry.2.option ≠ definition.name := by
  obtain ⟨name, unused, named⟩ := List.mem_filterMap.mp found
  obtain ⟨definition, first, rfl⟩ := Option.map_eq_some_iff.mp named
  obtain rfl : definition.name = name := by simpa using List.find?_some first
  refine ⟨definition, first, rfl, fun entry guarded same => ?_⟩
  have notUsed := (List.mem_filter.mp unused).2
  simp at notUsed
  exact notUsed entry.1 entry.2 guarded same

section

variable {graph : Graph} {issue : Issue}

theorem severity_redefinitions (found : issue ∈ redefinitions graph) : issue.severity = .info := by
  obtain ⟨first, further, -, rfl⟩ := exists_redefinition_of_mem found
  rfl

theorem severity_impossibleGuards (found : issue ∈ impossibleGuards graph)
    : issue.severity = .error := by
  obtain ⟨line, guard, first, -, -, -, rfl⟩ := mem_impossibleGuards_iff.mp found
  rfl

theorem severity_unreachableNodes (found : issue ∈ unreachableNodes graph)
    : issue.severity = .warning := by
  obtain ⟨id, -, rfl⟩ := mem_unreachableNodes_iff.mp found
  rfl

theorem severity_unusedOptions (found : issue ∈ unusedOptions graph) : issue.severity = .info := by
  obtain ⟨definition, -, rfl, -⟩ := mem_unusedOptions found
  rfl

/-- Every issue comes from one of the four checks. -/
theorem findings_cases {config : Config} (found : issue ∈ findings config graph)
    : issue ∈ redefinitions graph
      ∨ issue ∈ impossibleGuards graph
      ∨ issue ∈ unreachableNodes graph
      ∨ issue ∈ unusedOptions graph := by
  have whenOn {on : Bool} {issues : List Issue} (member : issue ∈ if on then issues else [])
      : issue ∈ issues := by
    cases on with
    | true => exact member
    | false => cases member
  unfold findings at found
  rw [List.mem_append, List.mem_append, List.mem_append] at found
  rcases found with ((redefined | impossible) | unreachable) | unused
  · exact Or.inl (whenOn redefined)
  · exact Or.inr (Or.inl (whenOn impossible))
  · exact Or.inr (Or.inr (Or.inl (whenOn unreachable)))
  · exact Or.inr (Or.inr (Or.inr (whenOn unused)))

/-- Errors come from the check of thresholds, since the other checks find nothing as serious. -/
theorem mem_impossibleGuards_of_error {config : Config}
    (reported : issue ∈ (check config graph).issues) (serious : issue.severity = .error)
    : issue ∈ impossibleGuards graph := by
  rcases findings_cases (mem_check_iff.mp reported) with
    redefined | impossible | unreachable | unused
  · nomatch (severity_redefinitions redefined).symm.trans serious
  · exact impossible
  · nomatch (severity_unreachableNodes unreachable).symm.trans serious
  · nomatch (severity_unusedOptions unused).symm.trans serious

end

/-- Warnings come from the check of what cannot be reached, since the other checks find something
more or less serious. If that check is on, what it finds are the warnings.
-/
theorem warnings_findings {config : Config} (enabled : config.flow.enabled = true)
    (on : config.flow.unreachable = true) (graph : Graph)
    : (findings config graph).filter (fun issue => issue.severity = .warning)
      = unreachableNodes graph := by
  have none {on : Bool} {issues : List Issue} {severity : Severity}
      (severities : ∀ {issue}, issue ∈ issues → issue.severity = severity)
      (other : severity ≠ .warning)
      : (if on then issues else []).filter (fun issue => issue.severity = .warning) = [] := by
    refine List.filter_eq_nil_iff.mpr fun issue member => ?_
    cases on with
    | true => simpa [severities member] using other
    | false => cases member
  have all : (unreachableNodes graph).filter (fun issue => issue.severity = .warning)
      = unreachableNodes graph :=
    List.filter_eq_self.mpr fun issue member => decide_eq_true (severity_unreachableNodes member)
  rw [findings, List.filter_append, List.filter_append, List.filter_append,
    none severity_redefinitions Severity.noConfusion,
    none severity_impossibleGuards Severity.noConfusion,
    none severity_unusedOptions Severity.noConfusion, enabled, on]
  simpa using all

/-- An option that is reported as unused is named by no guard of a reachable choice. The other
checks have other severities and categories, and the message tells the name.
-/
theorem unused_of_mem_check {config : Config} {graph : Graph} {definition : Definition}
    (reported : unusedOption definition ∈ (check config graph).issues)
    : ∀ entry ∈ graph.guardsByLine, entry.2.option ≠ definition.name := by
  rcases findings_cases (mem_check_iff.mp reported) with
    redefined | impossible | unreachable | unused
  · obtain ⟨first, further, -, same⟩ := exists_redefinition_of_mem redefined
    simp [unusedOption, redefinition] at same
  · nomatch severity_impossibleGuards impossible
  · nomatch severity_unreachableNodes unreachable
  · obtain ⟨found, -, same, notNamed⟩ := mem_unusedOptions unused
    have named : definition.name = found.name := by
      simpa [unusedOption] using congrArg Issue.message same
    rwa [named]

end Lint

end Dialogue
