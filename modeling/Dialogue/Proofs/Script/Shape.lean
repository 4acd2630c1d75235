import Dialogue.Proofs.Graph.InPlace
import Dialogue.Proofs.Play.Resolution
import Dialogue.Proofs.Script.Sources

/-! The shape of compiled graphs: their edges lead forward, and what is reachable is canonical. -/

namespace Dialogue

open Relation

namespace Graph

/-- However far splicing the edges of a slot has got, it comes to an end with the expanded edges: no
step has an alternative.
-/
theorem Forward.spliceSteps_complete {graph : Graph} (forward : graph.Forward) {id : Nat}
    {edges : List Nat × List Nat}
    (begun : ReflTransGen graph.SpliceStep ([], graph.next id) edges)
    : ReflTransGen graph.SpliceStep edges (graph.expandedNext id, []) := by
  have unique : Relator.RightUnique graph.SpliceStep := fun _ _ _ => SpliceStep.unique
  rcases ReflTransGen.total_of_right_unique unique begun
    (forward.noPlaceholderCycle.spliceSteps id) with left | right
  · exact left
  · rcases right.cases_head with same | ⟨next, step, -⟩
    · rw [same]
    · cases step

/-- Every choice of a spliced draft has successors, whether or not it is reachable. -/
theorem Drafted.next_splice_ne_nil {graph : Graph} (draft : graph.Drafted) {id : Nat}
    {guards : List Guard} (found : graph.splice.node id = .choice guards)
    : graph.splice.next id ≠ [] := by
  rw [node_splice] at found
  rw [next_splice]
  split
  · obtain ⟨guarded, many⟩ := draft.length_expandedNext_of_choice found
    exact fun none => guarded (List.length_eq_zero_iff.mp (by rw [← many, none]; rfl))
  · obtain ⟨guarded, many, -⟩ := draft.drafts found Node.noConfusion
    exact fun none => guarded (List.length_eq_zero_iff.mp (by rw [← many, none]; rfl))

end Graph

namespace Script

theorem Compiled.forward {graph : Graph} (compiled : Compiled graph) : graph.Forward := by
  obtain ⟨lines, scope, -, outlines, rfl⟩ := compiled.exists_lines
  exact outlines.drafted.forward.splice

theorem Compiled.root_eq {graph : Graph} (compiled : Compiled graph) : graph.root = 0 := by
  obtain ⟨lines, scope, -, outlines, rfl⟩ := compiled.exists_lines
  rw [Graph.root_splice]
  exact outlines.drafted.root

theorem Compiled.root_lt_size {graph : Graph} (compiled : Compiled graph)
    : graph.root < graph.size := by
  obtain ⟨lines, scope, -, outlines, rfl⟩ := compiled.exists_lines
  rw [Graph.size_splice]
  exact outlines.drafted.root_lt_size

theorem Compiled.inRange {graph : Graph} (compiled : Compiled graph) : graph.InRange :=
  ⟨compiled.root_lt_size, compiled.forward.lt_size_of_mem_slots⟩

/-- Compiled graphs are canonical. -/
theorem Compiled.canonical {graph : Graph} (compiled : Compiled graph) : graph.Canonical := by
  obtain ⟨lines, scope, -, outlines, rfl⟩ := compiled.exists_lines
  exact outlines.drafted.canonical

theorem Compiled.kept_of_reachable {graph : Graph} (compiled : Compiled graph) {id : Nat}
    (reached : id ∈ graph.reachable)
    : (graph.node id).isPlaceholder = false := by
  obtain ⟨lines, scope, -, outlines, rfl⟩ := compiled.exists_lines
  rw [Graph.node_splice]
  exact outlines.drafted.kept_of_reachable reached

/-- The root holds the start, since it is reachable. -/
theorem Compiled.start {graph : Graph} (compiled : Compiled graph)
    : graph.node graph.root = .start :=
  (compiled.canonical.start graph.root (root_mem_preorder compiled.root_lt_size)).mpr rfl

/-- A script that asks for a way, goes one of two ways, and goes on behind them. -/
def crossroads : List String :=
  ["<option>pick", "<a>A", "<b>B", "</>", "<choices>", "<pick,1>", "<//>", "<pick><2>", "<A>Two",
    "</>", "<A>After"]

/-- The graph of the script with two ways. Its two placeholders are no longer reachable. -/
def crossroadsGraph : Graph where
  slots :=
    [⟨.start, 0, [1]⟩, ⟨.beat (.option "pick" ["A", "B"]), 1, [2]⟩,
      ⟨.choice [⟨"pick", 1⟩, ⟨"pick", 2⟩], 5, [6, 4]⟩, ⟨.dead, 7, [6]⟩,
      ⟨.beat (.say "A" "Two"), 9, [6]⟩, ⟨.dead, 9, [6]⟩, ⟨.beat (.say "A" "After"), 11, []⟩,
      ⟨.empty, 0, []⟩]
  root := 0

theorem compile_crossroads : (compile crossroads).outcome = .ok crossroadsGraph := by
  decide +kernel

-----------------------------------------------------------------------------------------
-- Main statements
-----------------------------------------------------------------------------------------

/-- Every edge of a graph that is compiled from lines leads to a later slot of the graph, reachable
or not. So there are no cycles, splicing the draft in place comes to an end, with this graph, as
splicing the edges of each slot does, and following choices ends at a node that is none.
-/
theorem compile_edges_forward {texts : List String} {graph : Graph}
    (h : (compile texts).outcome = .ok graph)
    : (∀ source, ∀ target ∈ graph.next source, source < target ∧ target < graph.size)
      ∧ (∀ id, ¬ TransGen (fun source target => target ∈ graph.next source) id id)
      ∧ (∃ lines scope,
          Line.decodeAll (((texts.map trimmed).zipIdx 1).map Prod.swap) = .ok lines
          ∧ Line.Outlines lines scope
          ∧ scope.layout.splice = graph
          ∧ (∀ result, scope.layout.SplicesInPlace result ↔ result = graph)
          ∧ ∀ id edges,
              ReflTransGen scope.layout.SpliceStep ([], scope.layout.next id) edges
              → ReflTransGen scope.layout.SpliceStep edges (scope.layout.expandedNext id, []))
      ∧ ∀ memory id,
          ∃ last,
            ReflTransGen (graph.Follows memory) id last
            ∧ (∀ guards, graph.node last ≠ .choice guards)
            ∧ graph.resolve memory id = some last := by
  obtain ⟨lines, decoded, compiled⟩ := compile_eq_ok_iff.mp h
  obtain ⟨scope, outlines, spliced⟩ := Line.compile_eq_ok_iff.mp compiled
  have draft := outlines.drafted
  have forward : graph.Forward := (Compiled.lines h).forward
  have inRange : scope.layout.InRange :=
    ⟨draft.root_lt_size, draft.forward.lt_size_of_mem_slots⟩
  refine ⟨forward, fun id cycle => ?_, ?_, fun memory id => ?_⟩
  · exact Nat.lt_irrefl id (forward.lt_of_transGen cycle)
  · refine ⟨lines, scope, decoded, outlines, spliced, fun result => ?_, fun id edges begun => ?_⟩
    · rw [← spliced]
      exact Graph.splicesInPlace_iff inRange draft.forward.noPlaceholderCycle
    · exact draft.forward.spliceSteps_complete begun
  · refine forward.exists_resolve (fun id guards found => ?_) memory id
    rw [← spliced] at found ⊢
    exact draft.next_splice_ne_nil found

/-- In the graph of the script with two ways, edges lead forward and every slot resolves to some
node.
-/
theorem crossroads_edges_forward
    : (compile crossroads).outcome = .ok crossroadsGraph
      ∧ (∀ source,
          ∀ target ∈ crossroadsGraph.next source, source < target ∧ target < crossroadsGraph.size)
      ∧ ∀ memory id, (crossroadsGraph.resolve memory id).isSome = true := by
  have forward := compile_edges_forward compile_crossroads
  refine ⟨compile_crossroads, forward.1, fun memory id => ?_⟩
  obtain ⟨last, -, -, resolved⟩ := forward.2.2.2 memory id
  rw [resolved, Option.isSome_some]

/-- The reachable part of a compiled graph is canonical, where what is reachable is what the paths
from the root lead to.
-/
theorem Compiled.reachable_canonical {graph : Graph} (compiled : Compiled graph)
    : graph.Canonical ∧ ∀ id, id ∈ graph.reachable ↔ Reaches graph.next graph.root id :=
  ⟨compiled.canonical, fun _ => compiled.forward.mem_reachable_iff compiled.root_lt_size⟩

/-- What is reachable in the graph of the script with two ways is canonical, and the paths from the
root lead to five of its eight slots.
-/
theorem crossroads_canonical
    : crossroadsGraph.Canonical
      ∧ crossroadsGraph.reachable = [0, 1, 2, 6, 4]
      ∧ ∀ id, Reaches crossroadsGraph.next 0 id ↔ id ∈ [0, 1, 2, 6, 4] := by
  obtain ⟨canonical, reachable⟩ := Compiled.reachable_canonical (.lines compile_crossroads)
  have found : crossroadsGraph.reachable = [0, 1, 2, 6, 4] := by decide +kernel
  rw [found] at reachable
  exact ⟨canonical, found, fun id => (reachable id).symm⟩

end Script

end Dialogue
