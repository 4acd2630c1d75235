import Dialogue.Proofs.Lint.Findings
import Dialogue.Proofs.Play.Declared
import Dialogue.Proofs.Play.Progress
import Dialogue.Proofs.Script.Fidelity

/-! The warnings of a lint report, told on the dialogue tree that was written down: they are about
the lines behind a block that no branch leads out of, and playing never gets there.
-/

namespace Dialogue

open Dialogue.Graph

-----------------------------------------------------------------------------------------
-- Warnings of a graph
-----------------------------------------------------------------------------------------

/-- The lines of the slots that cannot be reached, apart from slots that come from no line. -/
def Graph.unreachableLines (graph : Graph) : List Nat :=
  (graph.unreachable.filter fun id => graph.line id ≠ 0).map graph.line

theorem Graph.mem_unreachableLines_iff {graph : Graph} {line : Nat}
    : line ∈ graph.unreachableLines
      ↔ line ≠ 0 ∧ ∃ id ∈ graph.unreachable, graph.line id = line := by
  unfold unreachableLines
  simp only [List.mem_map, List.mem_filter, decide_eq_true_iff]
  constructor
  · rintro ⟨id, ⟨lost, lined⟩, rfl⟩
    exact ⟨lined, id, lost, rfl⟩
  · rintro ⟨lined, id, lost, rfl⟩
    exact ⟨id, ⟨lost, lined⟩, rfl⟩

namespace Lint

theorem lines_unreachableNodes (graph : Graph)
    : ((unreachableNodes graph).filter fun issue => issue.line ≠ 0).map Issue.line
      = graph.unreachableLines := by
  rw [unreachableNodes_eq_map, List.filter_map, List.map_map]
  rfl

/-- The lines that a report warns of, apart from warnings without a line. -/
def Report.warnedLines (report : Report) : List Nat :=
  (report.issues.filter fun issue => issue.severity = .warning ∧ issue.line ≠ 0).map Issue.line

/-- A report on a graph whose slots come from later and later lines warns of the lines that cannot
be reached, in order.
-/
theorem warnedLines_check {config : Config} (enabled : config.flow.enabled = true)
    (on : config.flow.unreachable = true) {graph : Graph}
    (ordered : graph.unreachableLines.Pairwise (· < ·))
    : (check config graph).warnedLines = graph.unreachableLines := by
  have sorted : (check config graph).warnedLines.Pairwise (· ≤ ·) := by
    rw [Report.warnedLines, issues_check]
    exact List.pairwise_map.mpr ((pairwise_sortByLine _).filter _)
  have perm : (check config graph).warnedLines.Perm graph.unreachableLines := by
    rw [← lines_unreachableNodes, ← warnings_findings enabled on, List.filter_filter,
      Report.warnedLines, issues_check]
    simp only [Bool.decide_and, Bool.and_comm]
    exact ((perm_sortByLine _).filter _).map _
  exact perm.eq_of_pairwise (fun _ _ _ _ => Nat.le_antisymm) sorted (ordered.imp Nat.le_of_lt)

end Lint

/-- An engine never gets to a line of a compiled graph that cannot be reached. -/
theorem Engine.Visits.line_notMem {graph : Graph} (compiled : Script.Compiled graph)
    {engine : Engine} (visits : Visits graph engine)
    : engine.line ∉ graph.unreachableLines := by
  intro member
  obtain ⟨lined, id, lost, same⟩ := mem_unreachableLines_iff.mp member
  obtain ⟨unreached, kept, -⟩ := mem_unreachable_iff.mp lost
  have track := visits.onTrack compiled
  obtain rfl := track.same
  have here := compiled.kept_of_reachable track.position
  have equal := compiled.eq_of_line_eq kept here same (same ▸ lined)
  exact unreached (equal ▸ track.position)

-----------------------------------------------------------------------------------------
-- Warnings of an outline
-----------------------------------------------------------------------------------------

mutual

/-- What is lost of a scope comes from its source lines, by induction on the outline. -/
theorem Scope.lost_sublist (cut : Bool) (scope : Scope)
    : (scope.lost cut).Sublist scope.sourceLines := by
  have first (line : Nat) {lost lines : List Nat} (later : lost.Sublist lines)
      : ((if cut then [line] else []) ++ lost).Sublist (line :: lines) := by
    cases cut with
    | true => exact later.cons_cons line
    | false => exact later.cons line
  cases scope with
  | beat shown line rest => exact first line (rest.lost_sublist cut)
  | block line branches rest =>
      exact first line ((branches.lost_sublist cut).append (rest.lost_sublist _))
  | ended line => cases cut <;> simp [Scope.lost, Scope.sourceLines]
  | dead line | runsOut line | unfilled => exact List.nil_sublist _

theorem Branches.lost_sublist (cut : Bool) (branches : Branches)
    : (branches.lost cut).Sublist branches.sourceLines := by
  cases branches with
  | nil => exact List.nil_sublist _
  | cons guard body rest => exact (body.lost_sublist cut).append (rest.lost_sublist cut)

end

/-- What is lost does not depend on how the end of an outline is settled. -/
theorem Scope.lost_settle (scope : Scope) (cut waiting : Bool)
    : (scope.settle waiting).lost cut = scope.lost cut := by
  cases scope with
  | beat shown line rest => rw [settle, lost, lost, rest.lost_settle]
  | block line branches rest => rw [settle, lost, lost, rest.lost_settle]
  | runsOut line => cases waiting <;> rfl
  | ended line | dead line | unfilled => rfl

theorem Scope.ids_layout (scope : Scope)
    : scope.layout.ids
      = 0 :: (List.range' 1 scope.size ++ if scope.isLoose then [scope.size + 1] else []) := by
  rw [Graph.ids, scope.size_layout, List.range_eq_range']
  cases scope.isLoose with
  | true => rw [if_pos rfl, if_pos rfl, List.range'_succ, List.range'_1_concat, Nat.add_comm 1]
  | false =>
      rw [if_neg Bool.false_ne_true, if_neg Bool.false_ne_true, Nat.add_zero, List.range'_succ,
        List.append_nil]

/-- Once an outline is laid out and spliced, the slots that cannot be reached are slots of the
outline, apart from the ending behind it, which comes from no line.
-/
theorem Scope.unreachable_layout {scope : Scope} (proper : scope.Proper)
    : ∃ behind,
        scope.layout.splice.unreachable
          = scope.layout.splice.lostBetween scope.layout.splice.reachable 1 scope.size ++ behind
        ∧ ∀ id ∈ behind, scope.layout.splice.line id = 0 := by
  have drafted := Scope.drafted_layout proper
  have startNot : ∀ id, 0 < id → scope.layout.splice.node id ≠ .start := by
    intro id positive found
    rw [node_splice] at found
    have root := (drafted.drafts found Node.noConfusion).1
    rw [drafted.root] at root
    exact Nat.ne_of_gt positive root
  have start : scope.layout.splice.node 0 = .start := node_splice _ 0
  have ids : scope.layout.splice.ids = scope.layout.ids := by
    rw [Graph.ids, size_splice, Graph.ids]
  have inScope : (List.range' 1 scope.size).filter scope.layout.splice.isUnreachable
      = scope.layout.splice.lostBetween scope.layout.splice.reachable 1 scope.size := by
    refine List.filter_congr fun id member => ?_
    have positive := (List.mem_range'_1.mp member).1
    rw [isUnreachable, decide_eq_true (startNot id positive), Bool.and_true]
  refine ⟨(if scope.isLoose then [scope.size + 1] else []).filter
    scope.layout.splice.isUnreachable, ?_, fun id member => ?_⟩
  · rw [Graph.unreachable, ids, scope.ids_layout,
      List.filter_cons_of_neg (by simp [isUnreachable, start]), List.filter_append, inScope]
  · have exit := (List.mem_filter.mp member).1
    split at exit
    · next loose =>
        obtain rfl := List.mem_singleton.mp exit
        rw [line_splice, scope.line_layout_exit loose]
    · exact absurd exit List.not_mem_nil

/-- Once an outline is laid out and spliced, the lines that cannot be reached are the lost ones. -/
theorem Scope.unreachableLines_layout {scope : Scope} (proper : scope.Proper)
    (ordered : (0 :: scope.sourceLines).Pairwise (· < ·))
    : scope.layout.splice.unreachableLines = scope.lost false := by
  obtain ⟨behind, slots, unlined⟩ := Scope.unreachable_layout proper
  have lines := Scope.lines_lostBetween_layout proper
  have lined : ∀ id ∈ scope.layout.splice.lostBetween scope.layout.splice.reachable 1 scope.size,
      decide (scope.layout.splice.line id ≠ 0) = true := by
    intro id lost
    have member := List.mem_map_of_mem lost (f := scope.layout.splice.line)
    rw [lines] at member
    have positive := (List.pairwise_cons.mp ordered).1 _ ((scope.lost_sublist false).subset member)
    exact decide_eq_true (Nat.ne_of_gt positive)
  rw [Graph.unreachableLines, slots, List.filter_append, List.filter_eq_self.mpr lined,
    List.filter_eq_nil_iff.mpr fun id member => by simp [unlined id member], List.append_nil, lines]

-----------------------------------------------------------------------------------------
-- Warnings of a tree
-----------------------------------------------------------------------------------------

mutual

/-- The rows of the remarks, the blocks and the endings of a tree behind a block that no branch
leads out of, in the scope of that block or inside the blocks there. The first row of the tree has
the number `row`. If `cut`, such a block comes before the whole tree.
-/
def Passage.lost (cut : Bool) (row : Nat) : Passage → List Nat
  | .remark remark rest =>
      (if cut then [row] else []) ++ rest.lost cut (row + remark.rows.length)
  | .choices forks rest =>
      (if cut then [row] else [])
        ++ (forks.lost cut (row + 1)
          ++ rest.lost (cut || !forks.complete) (row + 1 + forks.rows.length + 1))
  | .close .ended => if cut then [row] else []
  | .close .dead | .close .runsOut => []

/-- The rows of the remarks, the blocks and the endings of branches behind a block that no branch
leads out of.
-/
def Forks.lost (cut : Bool) (row : Nat) : Forks → List Nat
  | .last _ body => body.lost cut (row + 1)
  | .cons _ body rest => body.lost cut (row + 1) ++ rest.lost cut (row + 1 + body.rows.length)

end

mutual

/-- What is lost of the outline of a tree comes from the lines of the lost rows, by induction on the
tree.
-/
theorem Passage.lost_outline (number : Nat → Nat) (passage : Passage) (cut : Bool) (row : Nat)
    : (passage.outline number row).lost cut = (passage.lost cut row).map number := by
  cases passage with
  | remark remark rest =>
      rw [Passage.outline, Scope.lost, Passage.lost, rest.lost_outline number, List.map_append]
      cases cut <;> rfl
  | choices forks rest =>
      rw [Passage.outline, Scope.lost, Passage.lost, forks.lost_outline number,
        rest.lost_outline number, (forks.outlined number _).complete_eq, List.map_append,
        List.map_append]
      cases cut <;> rfl
  | close closing =>
      cases closing with
      | ended => cases cut <;> rfl
      | dead | runsOut => rfl

theorem Forks.lost_outline (number : Nat → Nat) (forks : Forks) (cut : Bool) (row : Nat)
    : (forks.outline number row).lost cut = (forks.lost cut row).map number := by
  cases forks with
  | last cue body =>
      rw [Forks.outline, Branches.lost, Branches.lost, Forks.lost, body.lost_outline number,
        List.append_nil]
  | cons cue body rest =>
      rw [Forks.outline, Branches.lost, Forks.lost, body.lost_outline number,
        rest.lost_outline number, List.map_append]

end

/-- A lint report on the graph warns of exactly these lines, once each, and playing the graph never
gets to one of them.
-/
structure Graph.WarnsOf (graph : Graph) (lines : List Nat) : Prop where
  ordered : (0 :: lines).Pairwise (· < ·)
  warned
    : ∀ config : Lint.Config,
        config.flow.enabled = true
        → config.flow.unreachable = true
        → (Lint.check config graph).warnedLines = lines
  unseen : ∀ engine, Engine.Visits graph engine → engine.line ∉ lines

/-- Lines that hold the rows of a legible tree are compiled to a graph in which what is lost of the
tree is warned of, if a script has these lines.
-/
theorem Passage.Legible.warnsOf {passage : Passage} (legible : passage.Legible) {lines : List Line}
    (holds : lines.map Line.row = passage.rows) (numbered : Line.Numbered lines)
    : ∃ graph,
        (Line.compile lines).outcome = .ok graph
        ∧ (Script.Compiled graph
          → graph.WarnsOf ((passage.lost false 0).map (Line.numberAt lines))) := by
  obtain ⟨outlines, -, -⟩ := legible.outlines_outline holds
  refine ⟨_, Line.compile_eq_ok_iff.mpr ⟨_, outlines, rfl⟩, fun compiled => ?_⟩
  have sourced := outlines.sourceLines numbered
  have lost := Scope.unreachableLines_layout outlines.proper sourced
  have ordered := sourced.sublist ((Scope.lost_sublist false _).cons_cons 0)
  rw [Scope.lost_settle, passage.lost_outline] at lost ordered
  refine ⟨ordered, fun config enabled on => ?_, fun engine visits => ?_⟩
  · rw [Lint.warnedLines_check enabled on (lost ▸ (List.pairwise_cons.mp ordered).2), lost]
  · rw [← lost]
    exact visits.line_notMem compiled

theorem Line.numberAt_of_decodeAll {texts : List (Nat × String)} {lines : List Line}
    (decoded : decodeAll texts = .ok lines) (index : Nat)
    : numberAt lines index = (texts.map Prod.fst).getD index 0 := by
  rw [← numbers_of_decodeAll decoded, numberAt, List.getD_eq_getElem?_getD, List.getElem?_map]

-----------------------------------------------------------------------------------------
-- Main statement
-----------------------------------------------------------------------------------------

/-- A legible tree compiles, from its lines and from every text whose lines that are not blank are
these once they are trimmed. Either way a lint report warns of exactly the lines of the lost rows,
once each, and playing never gets there.
-/
theorem Passage.warnings_exact {passage : Passage} (legible : passage.Legible)
    : (∃ graph,
          (Script.compile (passage.rows.map Row.render)).outcome = .ok graph
          ∧ graph.WarnsOf ((passage.lost false 0).map fun row => row + 1))
      ∧ ∀ source,
          (Script.numberedLines source).map Prod.snd = passage.rows.map Row.render
          → ∃ graph,
              (Script.compileText source).outcome = .ok graph
              ∧ graph.WarnsOf ((passage.lost false 0).map fun row =>
                  ((Script.numberedLines source).map Prod.fst).getD row 0) := by
  have plain := passage.plain_rows (passage.legibleName legible.all) legible.all
  refine ⟨?_, fun source written => ?_⟩
  · obtain ⟨lines, decoded, holds⟩ := Script.decodeAll_of_rows plain
    obtain ⟨graph, compiled, warns⟩ := legible.warnsOf holds (Script.numbered_lines decoded)
    have whole := Script.compile_eq_ok_iff.mpr ⟨lines, decoded, compiled⟩
    have numbers : ∀ row ∈ passage.lost false 0, Line.numberAt lines row = row + 1 := by
      intro row lost
      have positive := (List.pairwise_cons.mp (warns (.lines whole)).ordered).1 _
        (List.mem_map_of_mem lost)
      rw [Line.numberAt_of_decodeAll decoded, Script.numbers_lines, List.length_map,
        List.getD_eq_getElem?_getD] at positive ⊢
      by_cases inside : row < passage.rows.length
      · simp [inside, Nat.add_comm]
      · simp [inside] at positive
    rw [List.map_congr_left numbers] at warns
    exact ⟨graph, whole, warns (.lines whole)⟩
  · obtain ⟨lines, decoded, holds⟩ := Line.decodeAll_rows plain written
    obtain ⟨graph, compiled, warns⟩ := legible.warnsOf holds (Script.numbered_text decoded)
    have whole := Script.compileText_eq_ok_iff.mpr ⟨lines, decoded, compiled⟩
    rw [List.map_congr_left fun row _ => Line.numberAt_of_decodeAll decoded row] at warns
    exact ⟨graph, whole, warns (.text whole)⟩

/-- A tree with a block that no branch leads out of inside another block, and with one more behind
the latter.
-/
def Passage.deadEnds : Passage :=
  .remark (.option .joined "pick" ⟨"a", "A"⟩ [⟨"b", "B"⟩])
    (.choices
      (.cons ⟨.joined, ⟨"pick", 1⟩⟩
        (.choices (.last ⟨.joined, ⟨"pick", 2⟩⟩ (.close .ended))
          (.remark (.say "A" "Lost") (.close .runsOut)))
        (.last ⟨.joined, ⟨"pick", 2⟩⟩ (.remark (.say "A" "Kept") (.close .runsOut))))
      (.choices (.last ⟨.joined, ⟨"pick", 1⟩⟩ (.close .ended))
        (.choices (.last ⟨.joined, ⟨"pick", 2⟩⟩ (.remark (.say "A" "Never") (.close .runsOut)))
          (.close .ended))))

def Script.deadEnds : List String :=
  ["<option>pick", "<a>A", "<b>B", "</>",
    "<choices>", "<pick,1>", "<choices>", "<pick,2>", "<END>", "</>", "<A>Lost",
      "<pick,2>", "<A>Kept", "</>",
    "<choices>", "<pick,1>", "<END>", "</>",
    "<choices>", "<pick,2>", "<A>Never", "</>", "<END>"]

theorem Passage.legible_deadEnds : deadEnds.Legible := by
  decide +kernel

/-- In the script with dead ends, the warnings are about the line behind the inner block and about
all that comes behind the last block that no branch leads out of.
-/
theorem Passage.deadEnds_warnings
    : deadEnds.Legible
      ∧ deadEnds.rows.map Row.render = Script.deadEnds
      ∧ deadEnds.lost false 0 = [10, 18, 20, 22]
      ∧ ∃ graph,
          (Script.compile Script.deadEnds).outcome = .ok graph
          ∧ graph.WarnsOf [11, 19, 21, 23] := by
  have written : deadEnds.rows.map Row.render = Script.deadEnds := by decide +kernel
  have lost : deadEnds.lost false 0 = [10, 18, 20, 22] := by decide +kernel
  obtain ⟨⟨graph, compiled, warns⟩, -⟩ := warnings_exact legible_deadEnds
  rw [written] at compiled
  rw [lost] at warns
  exact ⟨legible_deadEnds, written, lost, graph, compiled, warns⟩

end Dialogue
