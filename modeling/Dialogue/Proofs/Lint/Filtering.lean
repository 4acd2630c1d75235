import Dialogue.Lint.Pass
import Dialogue.Proofs.Lint.Findings

/-! What a lint configuration does to a report: it keeps the issues of the checks that are on. No
check depends on whether another one is on, and sorting goes along with leaving out.
-/

namespace Dialogue.Lint

-----------------------------------------------------------------------------------------
-- One pass and separate checks
-----------------------------------------------------------------------------------------

theorem first?_cons (definition : Definition) (definitions : List Definition) (name : String)
    : Definition.first? (definition :: definitions) name
      = if definition.name = name then some definition else Definition.first? definitions name := by
  rw [Definition.first?, List.find?_cons]
  by_cases same : definition.name = name <;> simp [same, Definition.first?]

/-- The look at the option blocks reports the redefinitions if duplicates are reported, by induction
on the blocks.
-/
theorem report_foldl_meet (duplicates : Bool) (definitions firsts : List Definition)
    (report : Report)
    : (definitions.foldl (Pass.meet duplicates) ⟨firsts, report⟩).report
      = (if duplicates then redefinitionsAfter firsts definitions else []).foldl Report.add
          report := by
  induction definitions generalizing firsts report with
  | nil => cases duplicates <;> rfl
  | cons definition rest ih =>
      rw [List.foldl_cons, Pass.meet, redefinitionsAfter]
      cases Definition.first? firsts definition.name with
      | none => exact ih (definition :: firsts) report
      | some first => cases duplicates <;> simpa using ih firsts _

/-- The blocks that the look keeps are the first of their names, whether or not duplicates are
reported. By induction on the blocks: a name that was met before is not kept again.
-/
theorem first?_foldl_meet (duplicates : Bool) (definitions firsts : List Definition)
    (report : Report) (name : String)
    : Definition.first? (definitions.foldl (Pass.meet duplicates) ⟨firsts, report⟩).firsts name
      = (Definition.first? firsts name).or (Definition.first? definitions name) := by
  induction definitions generalizing firsts report with
  | nil => simp [Definition.first?]
  | cons definition rest ih =>
      rw [List.foldl_cons, Pass.meet, first?_cons]
      cases met : Definition.first? firsts definition.name with
      | none =>
          have later := ih (definition :: firsts) report
          rw [first?_cons] at later
          by_cases same : definition.name = name
          · subst same
            simpa [met] using later
          · simpa [same] using later
      | some first =>
          have later (report : Report) := ih firsts report
          by_cases same : definition.name = name
          · subst same
            cases duplicates <;> simpa [met] using later _
          · cases duplicates <;> simpa [same] using later _

/-- The look at the guards reports those that ask for too much, if the blocks at hand are the first
of their names.
-/
theorem foldl_weighGuard {graph : Graph} {firsts : List Definition}
    (known : ∀ name, Definition.first? firsts name = Definition.first? graph.definitions name)
    (report : Report)
    : graph.guardsByLine.foldl (weighGuard firsts) report
      = (impossibleGuards graph).foldl Report.add report := by
  rw [impossibleGuards, List.foldl_filterMap]
  congr 1
  funext report ⟨line, guard⟩
  simp only [weighGuard, known]
  cases Definition.first? graph.definitions guard.option with
  | none => rfl
  | some first => by_cases few : first.choices < guard.threshold <;> simp [few]

theorem passReferences_eq (config : ReferenceChecks) (graph : Graph) (report : Report)
    : passReferences config graph report
      = ((if config.duplicates then redefinitions graph else [])
          ++ (if config.thresholds then impossibleGuards graph else [])).foldl Report.add
            report := by
  have blocks := report_foldl_meet config.duplicates graph.definitions [] report
  have firsts := first?_foldl_meet config.duplicates graph.definitions [] report
  rw [List.foldl_append, redefinitions, ← blocks, passReferences]
  cases config.thresholds with
  | true => exact foldl_weighGuard firsts _
  | false => rfl

theorem foldl_visitSlot (graph : Graph) (report : Report)
    : graph.ids.foldl (visitSlot graph graph.reachable) report
      = (unreachableNodes graph).foldl Report.add report := by
  rw [unreachableNodes, List.foldl_map, List.foldl_filter]
  congr 1
  funext report id
  rw [visitSlot]
  cases graph.reachable.contains id <;> cases (graph.node id).isPlaceholder <;> simp

theorem passFlow_eq (config : FlowChecks) (graph : Graph) (report : Report)
    : passFlow config graph report
      = ((if config.unreachable then unreachableNodes graph else [])
          ++ (if config.unusedOptions then unusedOptions graph else [])).foldl Report.add
            report := by
  rw [List.foldl_append, passFlow, foldl_visitSlot]
  cases config.unreachable <;> cases config.unusedOptions <;> rfl

/-- Adding issues as they are found gives the report of what the separate checks find. -/
theorem run_eq_check (config : Config) (graph : Graph) : run config graph = check config graph := by
  rw [run, check, findings, passReferences_eq, passFlow_eq]
  cases config.references.enabled <;> cases config.flow.enabled <;> simp [List.foldl_append]

-----------------------------------------------------------------------------------------
-- Tallies
-----------------------------------------------------------------------------------------

/-- How many issues of a severity the report has counted. -/
def Report.counted (report : Report) : Severity → Nat
  | .error => report.errors
  | .warning => report.warnings
  | .info => report.infos

theorem Report.counted_add (report : Report) (issue : Issue) (severity : Severity)
    : (report.add issue).counted severity
      = report.counted severity + if issue.severity = severity then 1 else 0 := by
  unfold Report.add
  cases issue.severity <;> cases severity <;> rfl

theorem Report.counted_foldl_add (report : Report) (issues : List Issue) (severity : Severity)
    : (issues.foldl Report.add report).counted severity
      = report.counted severity + issues.countP (fun issue => issue.severity = severity) := by
  induction issues generalizing report with
  | nil => rfl
  | cons issue rest ih =>
      rw [List.foldl_cons, ih, counted_add, List.countP_cons, Nat.add_assoc,
        Nat.add_comm (List.countP _ rest)]
      simp

/-- A report has counted the issues that it has, since sorting keeps all of them. -/
theorem counted_check (config : Config) (graph : Graph) (severity : Severity)
    : (check config graph).counted severity
      = (check config graph).issues.countP (fun issue => issue.severity = severity) := by
  rw [issues_check, (perm_sortByLine _).countP_eq]
  have counted := Report.counted_foldl_add .empty (findings config graph) severity
  have none : Report.empty.counted severity = 0 := by cases severity <;> rfl
  rw [none, Nat.zero_add] at counted
  rw [← counted, check, Report.sorted]
  cases severity <;> rfl

theorem hasErrors_check_iff (config : Config) (graph : Graph)
    : (check config graph).hasErrors = true
      ↔ ∃ issue ∈ (check config graph).issues, issue.severity = .error := by
  have counted : (check config graph).errors = _ := counted_check config graph .error
  rw [Report.hasErrors, counted, decide_eq_true_iff, List.countP_pos_iff]
  simp

-----------------------------------------------------------------------------------------
-- Sorting and leaving out
-----------------------------------------------------------------------------------------

theorem insertByLine_of_le {issue : Issue} {issues : List Issue}
    (first : ∀ other ∈ issues, issue.line ≤ other.line)
    : insertByLine issue issues = issue :: issues := by
  cases issues with
  | nil => rfl
  | cons other rest => exact if_pos (first other List.mem_cons_self)

/-- An issue that is kept comes to the same place among those that are kept, since they are in
order. By induction on them.
-/
theorem filter_insertByLine (keeps : Issue → Bool) (issue : Issue) {issues : List Issue}
    (ordered : issues.Pairwise fun earlier later => earlier.line ≤ later.line)
    : (insertByLine issue issues).filter keeps
      = if keeps issue then insertByLine issue (issues.filter keeps)
        else issues.filter keeps := by
  induction issues with
  | nil => cases kept : keeps issue <;> simp [insertByLine, kept]
  | cons other rest ih =>
      obtain ⟨first, orderedRest⟩ := List.pairwise_cons.mp ordered
      rw [insertByLine]
      split
      · next before =>
          have least : ∀ later ∈ (other :: rest).filter keeps, issue.line ≤ later.line := by
            intro later member
            rcases List.mem_cons.mp (List.mem_filter.mp member).1 with rfl | inRest
            · exact before
            · exact Nat.le_trans before (first later inRest)
          rw [insertByLine_of_le least, List.filter_cons]
      · next after =>
          rw [List.filter_cons, ih orderedRest, List.filter_cons]
          cases keeps other with
          | false => rfl
          | true =>
              cases keeps issue with
              | false => rfl
              | true => exact (if_neg after).symm

/-- Leaving out and sorting can change places, by induction on the issues. -/
theorem filter_sortByLine (keeps : Issue → Bool) (issues : List Issue)
    : (sortByLine issues).filter keeps = sortByLine (issues.filter keeps) := by
  induction issues with
  | nil => rfl
  | cons issue rest ih =>
      have ordered := pairwise_sortByLine rest
      unfold sortByLine at ih ordered ⊢
      rw [List.foldr_cons, filter_insertByLine keeps issue ordered, ih, List.filter_cons]
      cases keeps issue <;> rfl

-----------------------------------------------------------------------------------------
-- The checks
-----------------------------------------------------------------------------------------

/-- The checks whose findings a report brings together. -/
inductive Check where
  | duplicates
  | thresholds
  | unreachable
  | unusedOptions
  deriving DecidableEq

namespace Check

def all : List Check :=
  [duplicates, thresholds, unreachable, unusedOptions]

def findings : Check → Graph → List Issue
  | duplicates => redefinitions
  | thresholds => impossibleGuards
  | unreachable => unreachableNodes
  | unusedOptions => Lint.unusedOptions

def severity : Check → Severity
  | duplicates => .info
  | thresholds => .error
  | unreachable => .warning
  | unusedOptions => .info

def category : Check → String
  | duplicates | thresholds => "references"
  | unreachable | unusedOptions => "flow"

/-- Whether an issue has the severity and the category that the check reports. -/
def reports (check : Check) (issue : Issue) : Bool :=
  issue.severity = check.severity && issue.category = check.category

/-- A check is on if its group is enabled and its own switch is on. -/
def isOn (config : Config) : Check → Bool
  | duplicates => config.references.enabled && config.references.duplicates
  | thresholds => config.references.enabled && config.references.thresholds
  | unreachable => config.flow.enabled && config.flow.unreachable
  | unusedOptions => config.flow.enabled && config.flow.unusedOptions

variable {graph : Graph} {issue : Issue}

/-- A check reports its findings under its own severity and category, by cases on the check. -/
theorem reports_of_mem (check : Check) (found : issue ∈ check.findings graph)
    : check.reports issue = true := by
  cases check with
  | duplicates =>
      obtain ⟨first, further, -, rfl⟩ := exists_redefinition_of_mem found
      rfl
  | thresholds =>
      obtain ⟨line, guard, first, -, -, -, rfl⟩ := mem_impossibleGuards_iff.mp found
      rfl
  | unreachable =>
      obtain ⟨id, -, rfl⟩ := mem_unreachableNodes_iff.mp found
      rfl
  | unusedOptions =>
      obtain ⟨definition, -, rfl, -⟩ := mem_unusedOptions found
      rfl

/-- No two checks share both a severity and a category. -/
theorem eq_of_reports {left right : Check} (leftReports : left.reports issue = true)
    (rightReports : right.reports issue = true)
    : left = right := by
  simp only [reports, Bool.and_eq_true, decide_eq_true_iff] at leftReports rightReports
  obtain ⟨severity, category⟩ := leftReports
  rw [severity, category] at rightReports
  revert rightReports
  cases left <;> cases right <;> decide

end Check

/-- Whether the check is on that an issue of this severity and category comes from. -/
def Config.keeps (config : Config) (issue : Issue) : Bool :=
  Check.all.any fun check => check.isOn config && check.reports issue

theorem Check.mem_all (check : Check) : check ∈ all := by
  cases check <;> decide

theorem Config.keeps_of_reports (config : Config) {kind : Check} {issue : Issue}
    (reports : kind.reports issue = true)
    : config.keeps issue = kind.isOn config := by
  refine Bool.eq_iff_iff.mpr (List.any_eq_true.trans ⟨?_, fun on => ?_⟩)
  · rintro ⟨other, -, onAndReports⟩
    obtain ⟨on, same⟩ := (Bool.and_eq_true _ _).mp onAndReports
    rwa [← Check.eq_of_reports same reports]
  · exact ⟨kind, kind.mem_all, (Bool.and_eq_true _ _).mpr ⟨on, reports⟩⟩

theorem findings_eq_flatMap (config : Config) (graph : Graph)
    : findings config graph
      = Check.all.flatMap fun kind => if kind.isOn config then kind.findings graph else [] := by
  simp [findings, Check.all, Check.isOn, Check.findings]

theorem findings_default (graph : Graph)
    : findings {} graph = Check.all.flatMap fun kind => kind.findings graph := by
  rw [findings_eq_flatMap]
  rfl

/-- With some checks off, what is found is what the others find, in the same order: what one check
finds is kept or left out as a whole.
-/
theorem findings_eq_filter (config : Config) (graph : Graph)
    : findings config graph = (findings {} graph).filter config.keeps := by
  rw [findings_default, findings_eq_flatMap, List.filter_flatMap]
  congr 1
  funext kind
  have whole : ∀ issue ∈ kind.findings graph, config.keeps issue = kind.isOn config :=
    fun issue found => config.keeps_of_reports (kind.reports_of_mem found)
  rw [List.filter_congr whole]
  cases kind.isOn config <;> simp

/-- The findings of a severity and a category are those of one check. -/
theorem filter_reports_findings (kind : Check) (graph : Graph)
    : (findings {} graph).filter kind.reports = kind.findings graph := by
  have part (other : Check)
      : (other.findings graph).filter kind.reports
        = if other = kind then kind.findings graph else [] := by
    split
    · next same =>
        subst same
        exact List.filter_eq_self.mpr fun issue found => other.reports_of_mem found
    · next different =>
        refine List.filter_eq_nil_iff.mpr fun issue found reports => different ?_
        exact Check.eq_of_reports (other.reports_of_mem found) reports
  rw [findings_default, List.filter_flatMap]
  simp only [part]
  cases kind <;> simp [Check.all]

-----------------------------------------------------------------------------------------
-- Main statement
-----------------------------------------------------------------------------------------

/-- A report has the issues that the default report has and whose check is on, in the same order. In
the default report every issue comes from one check, and its severity and its category tell which.
The issues are in the order of their lines and are counted by severity, so that there is an error
if and only if one is listed. It is the report that arises when issues are added as they are found.
-/
theorem check_keeps (config : Config) (graph : Graph)
    : (check config graph).issues = (check {} graph).issues.filter config.keeps
      ∧ (∀ kind : Check,
          (check {} graph).issues.filter kind.reports = sortByLine (kind.findings graph))
      ∧ (∀ issue ∈ (check {} graph).issues, ∃! kind : Check, kind.reports issue = true)
      ∧ (check config graph).issues.Pairwise (fun earlier later => earlier.line ≤ later.line)
      ∧ (check config graph).errors
        = (check config graph).issues.countP (fun issue => issue.severity = .error)
      ∧ (check config graph).warnings
        = (check config graph).issues.countP (fun issue => issue.severity = .warning)
      ∧ (check config graph).infos
        = (check config graph).issues.countP (fun issue => issue.severity = .info)
      ∧ ((check config graph).hasErrors = true
        ↔ ∃ issue ∈ (check config graph).issues, issue.severity = .error)
      ∧ run config graph = check config graph := by
  have counted := counted_check config graph
  refine ⟨?_, fun kind => ?_, fun issue reported => ?_, ?_, counted .error, counted .warning,
    counted .info, hasErrors_check_iff config graph, run_eq_check config graph⟩
  · rw [issues_check, issues_check, filter_sortByLine, ← findings_eq_filter]
  · rw [issues_check, filter_sortByLine, filter_reports_findings]
  · rw [mem_check_iff, findings_default] at reported
    obtain ⟨kind, -, found⟩ := List.mem_flatMap.mp reported
    have reports := kind.reports_of_mem found
    exact ⟨kind, reports, fun other otherReports => Check.eq_of_reports otherReports reports⟩
  · rw [issues_check]
    exact pairwise_sortByLine _

/-- A graph with an option that is never used, and a branch for a choice that the other option does
not have.
-/
def twoFaults : Graph where
  slots :=
    [⟨.start, 0, [1]⟩, ⟨.beat (.option "mood" ["Fine"]), 1, [2]⟩,
      ⟨.beat (.option "pick" ["A"]), 4, [3]⟩, ⟨.choice [⟨"pick", 2⟩], 7, [4]⟩, ⟨.ending, 9, []⟩]
  root := 0

/-- The impossible branch is reported by one check, and with that check off the other issue stays
and there is no error.
-/
theorem twoFaults_check_keeps
    : (check {} twoFaults).issues
        = [⟨.info, "Option 'mood' is never used by a choices block", 1, "flow"⟩,
            ⟨.error, "Branch <pick,2> can never match: option 'pick' has 1 choices", 7,
              "references"⟩]
      ∧ (∃! kind : Check,
          kind.reports
            ⟨.error, "Branch <pick,2> can never match: option 'pick' has 1 choices", 7,
              "references"⟩
          = true)
      ∧ (check { references := { thresholds := false } } twoFaults).issues
        = [⟨.info, "Option 'mood' is never used by a choices block", 1, "flow"⟩] := by
  have issues
      : (check {} twoFaults).issues
        = [⟨.info, "Option 'mood' is never used by a choices block", 1, "flow"⟩,
            ⟨.error, "Branch <pick,2> can never match: option 'pick' has 1 choices", 7,
              "references"⟩] := by
    decide +kernel
  obtain ⟨kept, -, one, -⟩ := check_keeps { references := { thresholds := false } } twoFaults
  refine ⟨issues, one _ (by simp [issues]), ?_⟩
  rw [kept, issues]
  decide +kernel

end Dialogue.Lint
