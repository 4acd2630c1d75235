import Mathlib.Data.Finset.Max
import Dialogue.Proofs.Lint.Filtering
import Dialogue.Proofs.Play.Declared
import Dialogue.Proofs.Script.Enclosure
import Dialogue.Proofs.Script.Fidelity

/-! The block that a report names as the first definition of an option is the one that is met first
in preorder. Another block of the option can overtake it that comes later in the source.
-/

namespace Dialogue

/-- The option that a node presents, if it presents one. -/
def Node.option? : Node → Option String
  | .beat (.option name _) => some name
  | _ => none

namespace Graph

variable {graph : Graph} {name : String} {id : Nat}

theorem presents_iff : graph.Presents name id ↔ (graph.node id).option? = some name := by
  unfold Presents
  cases graph.node id with
  | beat shown => cases shown <;> simp [Node.option?]
  | start | ending | choice _ | dead | empty => simp [Node.option?]

instance : Decidable (graph.Presents name id) :=
  decidable_of_iff _ presents_iff.symm

/-- The reachable slots that present an option, in preorder. -/
def presenting (graph : Graph) (name : String) : List Nat :=
  graph.reachable.filter fun id => graph.Presents name id

theorem mem_presenting_iff
    : id ∈ graph.presenting name ↔ id ∈ graph.reachable ∧ graph.Presents name id := by
  simp [presenting]

theorem sourced_of_mem_presenting (member : id ∈ graph.presenting name) : id ∈ graph.sourced := by
  obtain ⟨-, choices, found⟩ := mem_presenting_iff.mp member
  exact mem_sourced_of_node (Or.inl ⟨_, found⟩)

/-- The definitions of an option are on the lines of the slots that present it, in the same order.
By induction on the reachable slots.
-/
theorem lines_definitions (graph : Graph) (name : String)
    : (graph.definitions.filter fun definition => definition.name = name).map Definition.line
      = (graph.presenting name).map graph.line := by
  unfold definitions presenting
  induction graph.reachable with
  | nil => rfl
  | cons id rest ih =>
      rw [List.filterMap_cons, List.filter_cons]
      simp only [presents_iff] at ih ⊢
      cases graph.node id with
      | beat shown =>
          cases shown with
          | option other choices => by_cases same : other = name <;> simp [Node.option?, same, ih]
          | scene _ | say _ _ | think _ _ => simpa [Node.option?] using ih
      | start | ending | choice _ | dead | empty => simpa [Node.option?] using ih

end Graph

namespace Lint

-----------------------------------------------------------------------------------------
-- What the two checks say about an option
-----------------------------------------------------------------------------------------

/-- The issue that the block on a line defines an option again, the first definition of which is
said to be on line `first`.
-/
def redefined (name : String) (first line : Nat) : Issue where
  severity := .info
  message := "Option '" ++ name ++ "' is redefined; the first definition is at line "
    ++ toString first
  line := line
  category := "references"

/-- The issue that no choice asks about an option, which is said to be defined on a line. -/
def unused (name : String) (line : Nat) : Issue where
  severity := .info
  message := "Option '" ++ name ++ "' is never used by a choices block"
  line := line
  category := "flow"

/-- The last word of the message are the digits of a line. -/
theorem afterLast_message_redefined (name : String) (first line : Nat)
    : Text.afterLast ' ' (redefined name first line).message.toList = (toString first).toList := by
  have digits : ' ' ∉ (toString first).toList := by
    intro member
    cases Text.isDigit_of_mem_toString member
  have shape
      : (redefined name first line).message.toList
        = ("Option '" ++ name ++ "' is redefined; the first definition is at line").toList
          ++ ' ' :: (toString first).toList := by
    simp [redefined]
  rw [shape, Text.afterLast_append digits]

/-- The message tells the line that it ends with, and then it tells the name. -/
theorem redefined_inj {name other : String} {first named line number : Nat}
    : redefined name first line = redefined other named number
      ↔ name = other ∧ first = named ∧ line = number := by
  constructor
  · intro same
    have digits := congrArg (fun issue => Text.afterLast ' ' issue.message.toList) same
    simp only [afterLast_message_redefined] at digits
    obtain rfl := Text.toString_inj.mp (String.toList_inj.mp digits)
    have names := congrArg (fun issue => issue.message.toList) same
    exact ⟨by simpa [redefined, String.toList_inj] using names, rfl, congrArg Issue.line same⟩
  · rintro ⟨rfl, rfl, rfl⟩
    rfl

/-- The issues that say that an option is redefined: they name the first of its blocks, and there is
one for each of the others. By induction on the blocks.
-/
theorem redefined_mem_iff {name : String} {first line : Nat} (firsts definitions : List Definition)
    : redefined name first line ∈ redefinitionsAfter firsts definitions
      ↔ ∃ further,
          ((Definition.first? firsts name).toList
              ++ definitions.filter fun definition => definition.name = name).map Definition.line
            = first :: further
          ∧ line ∈ further := by
  induction definitions generalizing firsts with
  | nil =>
      refine iff_of_false List.not_mem_nil ?_
      rintro ⟨further, shape, member⟩
      cases met : Definition.first? firsts name <;> simp_all
  | cons definition rest ih =>
      have issue (met : Definition)
          : redefinition met definition = redefined definition.name met.line definition.line :=
        rfl
      rw [redefinitionsAfter]
      by_cases same : definition.name = name
      · subst same
        cases met : Definition.first? firsts definition.name with
        | none => simp [ih, first?_cons]
        | some earlier => simp [issue, redefined_inj, ih, met, and_or_left, eq_comm]
      · cases met : Definition.first? firsts definition.name with
        | none => simp [ih, first?_cons, same]
        | some earlier => simp [issue, redefined_inj, ih, same, Ne.symm same]

/-- No issue that an option is redefined comes twice if the definitions are on different lines. -/
theorem lines_redefinitionsAfter (firsts definitions : List Definition)
    : ((redefinitionsAfter firsts definitions).map Issue.line).Sublist
        (definitions.map Definition.line) := by
  induction definitions generalizing firsts with
  | nil => exact .slnil
  | cons definition rest ih =>
      rw [redefinitionsAfter, List.map_cons]
      split
      · exact .cons_cons _ (ih firsts)
      · exact (ih _).cons _

/-- How often a report has an issue of a check. -/
theorem count_check {config : Config} {graph : Graph} {kind : Check} {issue : Issue}
    (reports : kind.reports issue = true)
    : (check config graph).issues.count issue
      = if kind.isOn config then (kind.findings graph).count issue else 0 := by
  have found : (kind.findings graph).count issue = (findings {} graph).count issue := by
    rw [← filter_reports_findings, List.count_filter reports]
  rw [issues_check, (perm_sortByLine _).count_eq, findings_eq_filter, found]
  have kept := config.keeps_of_reports reports
  split
  · next on => exact List.count_filter (kept.trans on)
  · next off =>
      refine List.count_eq_zero.mpr fun member => off ?_
      rw [← kept]
      exact (List.mem_filter.mp member).2

theorem mem_check_iff_of_reports {config : Config} {graph : Graph} {kind : Check} {issue : Issue}
    (reports : kind.reports issue = true)
    : issue ∈ (check config graph).issues
      ↔ kind.isOn config = true ∧ issue ∈ kind.findings graph := by
  rw [← List.count_pos_iff, ← List.count_pos_iff, count_check reports]
  split <;> simp_all

end Lint

-----------------------------------------------------------------------------------------
-- The blocks of an option in a compiled graph
-----------------------------------------------------------------------------------------

theorem Graph.Overtakes.ne {graph : Graph} {late early : Nat}
    (overtakes : graph.Overtakes late early)
    : late ≠ early := by
  rintro rfl
  obtain ⟨choice, -, before, left, after, -, onward, avoids, -⟩ := overtakes
  exact avoids left (by simp) onward

namespace Script.Compiled

variable {graph : Graph} (compiled : Compiled graph)

include compiled

theorem line_inj_of_sourced {left right : Nat} (leftSourced : left ∈ graph.sourced)
    (rightSourced : right ∈ graph.sourced) (same : graph.line left = graph.line right)
    : left = right := by
  rcases Nat.lt_trichotomy left right with before | equal | after
  · have := compiled.line_lt_of_sourced leftSourced rightSourced before
    omega
  · exact equal
  · have := compiled.line_lt_of_sourced rightSourced leftSourced after
    omega

theorem nodup_lines_definitions : (graph.definitions.map Definition.line).Nodup := by
  unfold Graph.definitions
  rw [List.map_filterMap]
  refine graph.nodup_reachable.filterMap fun left right line onLeft onRight => ?_
  have sourced {id : Nat}
      (found : line ∈ Option.map Definition.line (match graph.node id with
        | .beat (.option name choices) => some ⟨name, choices.length, graph.line id⟩
        | _ => none))
      : id ∈ graph.sourced ∧ graph.line id = line := by
    split at found
    · next name choices presents =>
        exact ⟨Graph.mem_sourced_of_node (Or.inl ⟨_, presents⟩), by simpa using found⟩
    · cases found
  obtain ⟨leftSourced, rfl⟩ := sourced onLeft
  obtain ⟨rightSourced, same⟩ := sourced onRight
  exact compiled.line_inj_of_sourced leftSourced rightSourced same.symm

section

variable {name : String} {early late : Nat}

theorem nodup_lines_presenting (name : String)
    : ((graph.presenting name).map graph.line).Nodup := by
  refine List.Nodup.map_on ?_ (graph.nodup_reachable.filter _)
  intro left leftIn right rightIn same
  exact compiled.line_inj_of_sourced (Graph.sourced_of_mem_presenting leftIn)
    (Graph.sourced_of_mem_presenting rightIn) same

/-- Of two blocks of an option, the one from the later line is met first exactly if it overtakes the
other.
-/
theorem sublist_presenting_iff (earlyIn : early ∈ graph.presenting name)
    (lateIn : late ∈ graph.presenting name) (lt : graph.line early < graph.line late)
    : [late, early].Sublist (graph.presenting name) ↔ graph.Overtakes late early := by
  have order : early < late := by
    by_contra notBefore
    rcases Nat.lt_or_eq_of_le (Nat.le_of_not_lt notBefore) with after | rfl
    · have := compiled.line_lt_of_sourced (Graph.sourced_of_mem_presenting lateIn)
        (Graph.sourced_of_mem_presenting earlyIn) after
      omega
    · omega
  rw [Graph.mem_presenting_iff] at earlyIn lateIn
  rw [← compiled.sublist_reachable_iff order]
  refine ⟨fun ordered => ordered.trans List.filter_sublist, fun ordered => ?_⟩
  have filtered := ordered.filter fun id => decide (graph.Presents name id)
  rwa [List.filter_cons_of_pos (by simpa using lateIn.2),
    List.filter_cons_of_pos (by simpa using earlyIn.2), List.filter_nil] at filtered

/-- The block that is met first has the smallest line exactly if none overtakes the one that has. -/
theorem line_lt_iff {met : Nat} {further : List Nat}
    (shape : graph.presenting name = met :: further)
    : (∀ id ∈ further, graph.line met < graph.line id)
      ↔ ∀ least ∈ met :: further,
          (∀ id ∈ met :: further, graph.line least ≤ graph.line id)
          → ∀ late ∈ met :: further, ¬ graph.Overtakes late least := by
  have distinct := compiled.nodup_lines_presenting name
  have overtakes (early late : Nat) := @sublist_presenting_iff _ compiled name early late
  rw [shape] at distinct overtakes
  obtain ⟨metNot, -⟩ := List.nodup_cons.mp distinct
  have different {id : Nat} (member : id ∈ further) : graph.line id ≠ graph.line met :=
    fun same => metNot (same ▸ List.mem_map_of_mem member)
  constructor
  · intro smallest least leastIn minimal late lateIn overtaken
    obtain rfl : least = met := by
      refine (List.mem_cons.mp leastIn).resolve_right fun member => ?_
      have := smallest least member
      have := minimal met List.mem_cons_self
      omega
    have member := (List.mem_cons.mp lateIn).resolve_left overtaken.ne
    have ordered := (overtakes _ _ leastIn lateIn (smallest late member)).mpr overtaken
    rcases List.sublist_cons_iff.mp ordered with both | ⟨others, same, -⟩
    · exact different (both.subset (by simp)) rfl
    · exact overtaken.ne (List.cons.inj same).1
  · intro unovertaken
    obtain ⟨least, leastIn, minimal⟩ :=
      (met :: further).toFinset.exists_min_image graph.line ⟨met, by simp⟩
    rw [List.mem_toFinset] at leastIn
    replace minimal : ∀ id ∈ met :: further, graph.line least ≤ graph.line id :=
      fun id member => minimal id (List.mem_toFinset.mpr member)
    obtain rfl : least = met := by
      refine (List.mem_cons.mp leastIn).resolve_right fun member => ?_
      have le := minimal met List.mem_cons_self
      have lt := Nat.lt_of_le_of_ne le (different member)
      refine unovertaken least leastIn minimal met List.mem_cons_self ?_
      exact (overtakes _ _ leastIn List.mem_cons_self lt).mp
        (.cons_cons met (List.singleton_sublist.mpr member))
    intro id member
    have := minimal id (List.mem_cons_of_mem _ member)
    have := different member
    omega

end

end Script.Compiled

-----------------------------------------------------------------------------------------
-- Main statement
-----------------------------------------------------------------------------------------

/-- A report has one issue for every block of an option but the one that is met first in preorder,
and each of them names the line of that block; so does the issue that the option is unused. That
line is smaller than the others exactly if no block overtakes the first one in the source.
-/
theorem Lint.names_first_met {graph : Graph} (compiled : Script.Compiled graph) (config : Config)
    (name : String)
    : (∀ first line,
        redefined name first line ∈ (check config graph).issues
        ↔ Check.duplicates.isOn config = true
          ∧ ∃ met further,
              graph.presenting name = met :: further
              ∧ graph.line met = first
              ∧ ∃ id ∈ further, graph.line id = line)
      ∧ (∀ first line, (check config graph).issues.count (redefined name first line) ≤ 1)
      ∧ ((graph.presenting name).map graph.line).Nodup
      ∧ (∀ line,
          unused name line ∈ (check config graph).issues
          → ∃ met further, graph.presenting name = met :: further ∧ graph.line met = line)
      ∧ ∀ met further,
          graph.presenting name = met :: further
          → ((∀ id ∈ further, graph.line met < graph.line id)
              ↔ ∀ least ∈ met :: further,
                  (∀ id ∈ met :: further, graph.line least ≤ graph.line id)
                  → ∀ late ∈ met :: further, ¬ graph.Overtakes late least) := by
  refine ⟨fun first line => ?_, fun first line => ?_, compiled.nodup_lines_presenting name,
    fun line reported => ?_, fun met further => compiled.line_lt_iff⟩
  · have reports : Check.duplicates.reports (redefined name first line) = true := rfl
    rw [mem_check_iff_of_reports reports]
    refine and_congr_right fun _ => (redefined_mem_iff [] graph.definitions).trans ?_
    simp only [Definition.first?, List.find?_nil, Option.toList_none, List.nil_append,
      Graph.lines_definitions, List.map_eq_cons_iff]
    constructor
    · rintro ⟨lines, ⟨met, further, shape, rfl, rfl⟩, member⟩
      exact ⟨met, further, shape, rfl, List.mem_map.mp member⟩
    · rintro ⟨met, further, shape, rfl, member⟩
      exact ⟨_, ⟨met, further, shape, rfl, rfl⟩, List.mem_map.mpr member⟩
  · have reports : Check.duplicates.reports (redefined name first line) = true := rfl
    have distinct : (redefinitions graph).Nodup :=
      (compiled.nodup_lines_definitions.sublist (lines_redefinitionsAfter [] _)).of_map
    rw [count_check reports]
    split
    · exact List.nodup_iff_count_le_one.mp distinct _
    · exact Nat.zero_le 1
  · have reports : Check.unusedOptions.reports (unused name line) = true := rfl
    obtain ⟨-, found⟩ := (mem_check_iff_of_reports reports).mp reported
    obtain ⟨definition, first, same, -⟩ := mem_unusedOptions found
    obtain rfl : name = definition.name := by
      simpa [unused, unusedOption] using congrArg Issue.message same
    obtain rfl : line = definition.line := congrArg Issue.line same
    rw [Definition.first?, ← List.head?_filter, List.head?_eq_some_iff] at first
    obtain ⟨others, shape⟩ := first
    have lines := graph.lines_definitions definition.name
    rw [shape, List.map_cons, eq_comm, List.map_eq_cons_iff] at lines
    obtain ⟨met, further, shape, same, -⟩ := lines
    exact ⟨met, further, shape, same⟩

/-- A script with a block for one option in the second way of a choice and another one behind both
ways.
-/
def Script.overtaken : List String :=
  ["<option>pick", "<a>A", "<b>B", "</>", "<choices>", "<pick,1>", "<A>One", "<pick,2>",
    "<option>mood", "<x>X", "</>", "</>", "<option>mood", "<y>Y", "</>"]

/-- The graph of the script with two blocks. The first way leads to the second block. -/
def Script.overtakenGraph : Graph where
  slots :=
    [⟨.start, 0, [1]⟩, ⟨.beat (.option "pick" ["A", "B"]), 1, [2]⟩,
      ⟨.choice [⟨"pick", 1⟩, ⟨"pick", 2⟩], 5, [3, 5]⟩, ⟨.beat (.say "A" "One"), 7, [7]⟩,
      ⟨.dead, 7, [7]⟩, ⟨.beat (.option "mood" ["X"]), 9, [7]⟩, ⟨.dead, 11, [7]⟩,
      ⟨.beat (.option "mood" ["Y"]), 13, []⟩, ⟨.empty, 0, []⟩]
  root := 0

/-- The script with two blocks compiles, the second block is met first, and the report of the graph
has two issues.
-/
theorem Script.reports_overtaken
    : (compile overtaken).outcome = .ok overtakenGraph
      ∧ overtakenGraph.presenting "mood" = [7, 5]
      ∧ (Lint.check {} overtakenGraph).issues
        = [Lint.redefined "mood" 13 9, Lint.unused "mood" 13] := by
  decide +kernel

/-- The block on line 13 is met before the block on line 9, since it overtakes it. The one issue
that the option is redefined is that of the block on line 9.
-/
theorem Lint.overtaken_names_later
    : (Script.compile Script.overtaken).outcome = .ok Script.overtakenGraph
      ∧ Script.overtakenGraph.presenting "mood" = [7, 5]
      ∧ (∀ first line,
          redefined "mood" first line ∈ (check {} Script.overtakenGraph).issues
          ↔ first = 13 ∧ line = 9)
      ∧ Script.overtakenGraph.Overtakes 7 5 := by
  obtain ⟨compiles, presenting, -⟩ := Script.reports_overtaken
  have compiled : Script.Compiled Script.overtakenGraph := .lines compiles
  obtain ⟨redefinitions, -, -, -, smallest⟩ := names_first_met compiled {} "mood"
  have lineFirst : Script.overtakenGraph.line 7 = 13 := rfl
  have lineSecond : Script.overtakenGraph.line 5 = 9 := rfl
  refine ⟨compiles, presenting, fun first line => ?_, ?_⟩
  · rw [redefinitions]
    simp [presenting, Check.isOn, lineFirst, lineSecond, eq_comm]
  · by_contra unovertaken
    have notSmallest : ¬ ∀ id ∈ [5], Script.overtakenGraph.line 7 < Script.overtakenGraph.line id :=
      by decide
    refine notSmallest ((smallest 7 [5] presenting).mpr ?_)
    intro least leastIn minimal late lateIn overtakes
    have below := minimal 5 (by simp)
    obtain rfl | rfl := List.mem_pair.mp leastIn
    · exact absurd below (by decide)
    · obtain rfl | rfl := List.mem_pair.mp lateIn
      · exact unovertaken overtakes
      · exact overtakes.ne rfl

/-- The report names line 13 as that of the first definition, and as that of an unused option, but
the first reachable block of the option is on line 9.
-/
theorem Lint.overtaken_not_first
    : redefined "mood" 13 9 ∈ (check {} Script.overtakenGraph).issues
      ∧ unused "mood" 13 ∈ (check {} Script.overtakenGraph).issues
      ∧ 5 ∈ Script.overtakenGraph.presenting "mood"
      ∧ Script.overtakenGraph.line 5 = 9
      ∧ ¬ ∀ texts graph name first line,
          (Script.compile texts).outcome = .ok graph
          → redefined name first line ∈ (check {} graph).issues
          → (∀ id ∈ graph.presenting name, first ≤ graph.line id) ∧ first < line := by
  obtain ⟨compiles, presenting, issues⟩ := Script.reports_overtaken
  have named : redefined "mood" 13 9 ∈ (check {} Script.overtakenGraph).issues := by simp [issues]
  refine ⟨named, by simp [issues], by simp [presenting], rfl, fun claimed => ?_⟩
  obtain ⟨-, before⟩ := claimed _ _ _ _ _ compiles named
  exact absurd before (by decide)

end Dialogue
