import Mathlib.Data.Set.Card
import Mathlib.Data.Finset.Range
import Mathlib.Logic.Relation
import Dialogue.Graph.Splice
import Dialogue.Proofs.Graph.Reachability

/-! What an edge leads to once placeholders have given way. On a graph without cycles of
placeholders the search for it is deep enough, and replacing edges one at a time ends with it.
-/

namespace Dialogue.Graph

open Relation

theorem lt_size_of_getElem? {graph : Graph} {id : Nat} {slot : Slot}
    (found : graph.slots[id]? = some slot)
    : id < graph.size :=
  (List.getElem?_eq_some_iff.mp found).1

theorem slot_of_getElem? {graph : Graph} {id : Nat} {slot : Slot}
    (found : graph.slots[id]? = some slot)
    : graph.slot id = slot := by
  rw [Graph.slot, found, Option.getD_some]

/-- Outside the graph there are only empty slots. -/
theorem slot_of_size_le {graph : Graph} {id : Nat} (outside : graph.size ≤ id)
    : graph.slot id = ⟨.empty, 0, []⟩ := by
  rw [Graph.slot, List.getElem?_eq_none outside, Option.getD_none]

theorem lt_size_of_mem_next {graph : Graph} {source target : Nat}
    (successor : target ∈ graph.next source)
    : source < graph.size := by
  by_contra outside
  rw [Graph.next, slot_of_size_le (Nat.le_of_not_lt outside)] at successor
  simp at successor

theorem lt_size_of_node_ne_empty {graph : Graph} {id : Nat} (filled : graph.node id ≠ .empty)
    : id < graph.size := by
  by_contra outside
  rw [Graph.node, slot_of_size_le (Nat.le_of_not_lt outside)] at filled
  exact filled rfl

theorem lt_size_of_not_placeholder {graph : Graph} {id : Nat}
    (kept : (graph.node id).isPlaceholder = false)
    : id < graph.size := by
  refine lt_size_of_node_ne_empty fun empty => ?_
  rw [empty] at kept
  exact Bool.noConfusion kept

/-- Graphs with the same root and the same slots are equal. -/
theorem eq_of_slot {left right : Graph} (root : left.root = right.root)
    (size : left.size = right.size) (slot : ∀ id, left.slot id = right.slot id)
    : left = right := by
  obtain ⟨leftSlots, leftRoot⟩ := left
  obtain ⟨rightSlots, rightRoot⟩ := right
  obtain rfl : leftRoot = rightRoot := root
  have same : leftSlots = rightSlots := by
    refine List.ext_getElem size fun id inLeft inRight => ?_
    simpa [Graph.slot, inLeft, inRight] using slot id
  rw [same]

theorem getElem?_slots {graph : Graph} {id : Nat} (inside : id < graph.size)
    : graph.slots[id]? = some (graph.slot id) := by
  rw [slot_of_getElem? (List.getElem?_eq_getElem inside)]
  exact List.getElem?_eq_getElem inside

theorem inRange_of_next {graph : Graph} (root : graph.root < graph.size)
    (next : ∀ source, ∀ target ∈ graph.next source, target < graph.size)
    : graph.InRange := by
  refine ⟨root, fun slot member target successor => ?_⟩
  obtain ⟨source, found⟩ := List.mem_iff_getElem?.mp member
  apply next source
  rwa [Graph.next, slot_of_getElem? found]

-----------------------------------------------------------------------------------------
-- Cycles of placeholders
-----------------------------------------------------------------------------------------

/-- An edge that leads out of a placeholder. -/
def PassesTo (graph : Graph) (source target : Nat) : Prop :=
  (graph.node source).isPlaceholder = true ∧ target ∈ graph.next source

/-- No cycle of the graph is made of placeholders alone. -/
def NoPlaceholderCycle (graph : Graph) : Prop :=
  ∀ id, ¬ TransGen graph.PassesTo id id

/-- The slots that are met on the way from a slot while placeholders lead on. -/
def passed (graph : Graph) (id : Nat) : Set Nat :=
  {other | other < graph.size ∧ ReflTransGen graph.PassesTo id other}

theorem passed_subset (graph : Graph) (id : Nat)
    : graph.passed id ⊆ (Finset.range graph.size : Set Nat) :=
  fun _ met => Finset.mem_coe.mpr (Finset.mem_range.mpr met.1)

theorem ncard_passed_le (graph : Graph) (id : Nat) : (graph.passed id).ncard ≤ graph.size := by
  have few := Set.ncard_le_ncard (graph.passed_subset id) (Finset.finite_toSet _)
  simpa only [Set.ncard_coe_finset, Finset.card_range] using few

/-- Fewer slots are met after a placeholder than from it: it is not met again. -/
theorem NoPlaceholderCycle.ncard_passed_lt {graph : Graph} (noCycle : graph.NoPlaceholderCycle)
    {source target : Nat} (passes : graph.PassesTo source target)
    : (graph.passed target).ncard < (graph.passed source).ncard := by
  refine Set.ncard_lt_ncard ⟨fun other met => ?_, fun back => ?_⟩ ?_
  · exact ⟨met.1, .head passes met.2⟩
  · have again := back ⟨lt_size_of_mem_next passes.2, .refl⟩
    exact noCycle source (.head' passes again.2)
  · exact (Finset.finite_toSet _).subset (graph.passed_subset source)

/-- A number that gets smaller along every edge out of a placeholder excludes cycles of them. -/
theorem noPlaceholderCycle_of_rank {graph : Graph} (rank : Nat → Nat)
    (falls : ∀ source target, graph.PassesTo source target → rank target < rank source)
    : graph.NoPlaceholderCycle := by
  intro id cycle
  have lower {source target : Nat} (path : TransGen graph.PassesTo source target)
      : rank target < rank source := by
    induction path with
    | single passes => exact falls _ _ passes
    | tail _ passes ih => exact Nat.lt_trans (falls _ _ passes) ih
  exact Nat.lt_irrefl _ (lower cycle)

-----------------------------------------------------------------------------------------
-- Expanding edges
-----------------------------------------------------------------------------------------

theorem expand_of_kept {graph : Graph} {id : Nat} (kept : (graph.node id).isPlaceholder = false)
    : graph.expand id = [id] := by
  simp [expand, expandTo, kept]

theorem flatMap_expand_of_kept {graph : Graph} {edges : List Nat}
    (kept : ∀ id ∈ edges, (graph.node id).isPlaceholder = false)
    : edges.flatMap graph.expand = edges := by
  have each : edges.flatMap graph.expand = edges.flatMap fun id => [id] :=
    List.flatMap_congr fun id member => expand_of_kept (kept id member)
  simpa using each

/-- Searching one placeholder deeper finds nothing more once the search is deeper than there are
slots to meet. By induction on the depth.
-/
theorem NoPlaceholderCycle.expandTo_succ {graph : Graph} (noCycle : graph.NoPlaceholderCycle)
    {depth id : Nat} (deep : (graph.passed id).ncard < depth)
    : graph.expandTo (depth + 1) id = graph.expandTo depth id := by
  induction depth generalizing id with
  | zero => exact absurd deep (Nat.not_lt_zero _)
  | succ depth ih =>
      rw [expandTo, expandTo]
      cases gone : (graph.node id).isPlaceholder with
      | false => rfl
      | true =>
          refine List.flatMap_congr fun target successor => ih ?_
          have fewer := noCycle.ncard_passed_lt ⟨gone, successor⟩
          omega

theorem NoPlaceholderCycle.expand_of_placeholder {graph : Graph}
    (noCycle : graph.NoPlaceholderCycle) {id : Nat}
    (gone : (graph.node id).isPlaceholder = true)
    : graph.expand id = (graph.next id).flatMap graph.expand := by
  rw [expand, expandTo, if_pos gone]
  refine List.flatMap_congr fun target successor => (noCycle.expandTo_succ ?_).symm
  have fewer := noCycle.ncard_passed_lt ⟨gone, successor⟩
  have few := graph.ncard_passed_le id
  omega

/-- What an edge expands to is no placeholder, and only placeholders stand between. By induction on
the depth of the search.
-/
theorem of_mem_expandTo {graph : Graph} {depth source target : Nat}
    (found : target ∈ graph.expandTo depth source)
    : (graph.node target).isPlaceholder = false
      ∧ ReflTransGen graph.PassesTo source target := by
  induction depth generalizing source with
  | zero => simp [expandTo] at found
  | succ depth ih =>
      rw [expandTo] at found
      split at found
      · next gone =>
          obtain ⟨middle, successor, below⟩ := List.mem_flatMap.mp found
          obtain ⟨kept, path⟩ := ih below
          exact ⟨kept, .head ⟨gone, successor⟩ path⟩
      · next kept =>
          obtain rfl := List.mem_singleton.mp found
          exact ⟨Bool.eq_false_iff.mpr kept, .refl⟩

theorem kept_of_mem_expandedNext {graph : Graph} {source target : Nat}
    (found : target ∈ graph.expandedNext source)
    : (graph.node target).isPlaceholder = false := by
  obtain ⟨middle, -, below⟩ := List.mem_flatMap.mp found
  exact (of_mem_expandTo below).1

-----------------------------------------------------------------------------------------
-- Splicing an edge list one edge at a time
-----------------------------------------------------------------------------------------

/-- One step of splicing an edge list, which is given as its finished part and the rest. The next
edge is kept, or it is replaced by the edges of the placeholder that it leads to, which are looked
at in their turn.
-/
inductive SpliceStep (graph : Graph) : List Nat × List Nat → List Nat × List Nat → Prop where
  | keep {finished rest id} (kept : (graph.node id).isPlaceholder = false)
    : graph.SpliceStep (finished, id :: rest) (finished ++ [id], rest)
  | replace {finished rest id} (gone : (graph.node id).isPlaceholder = true)
    : graph.SpliceStep (finished, id :: rest) (finished, graph.next id ++ rest)

/-- No edge list can be spliced in two ways, by cases on the next edge. -/
theorem SpliceStep.unique {graph : Graph} {edges left right : List Nat × List Nat}
    (first : graph.SpliceStep edges left) (second : graph.SpliceStep edges right)
    : left = right := by
  cases first with
  | keep kept =>
      cases second with
      | keep _ => rfl
      | replace gone => exact absurd gone (by simp [kept])
  | replace gone =>
      cases second with
      | keep kept => exact absurd gone (by simp [kept])
      | replace _ => rfl

/-- Edges that can be spliced one by one can be spliced all together, by induction on their list.
-/
theorem spliceSteps_of_each {graph : Graph} (finished : List Nat) {edges rest : List Nat}
    (each : ∀ id ∈ edges, ∀ finished rest,
      ReflTransGen graph.SpliceStep (finished, id :: rest) (finished ++ graph.expand id, rest))
    : ReflTransGen graph.SpliceStep (finished, edges ++ rest)
        (finished ++ edges.flatMap graph.expand, rest) := by
  induction edges generalizing finished with
  | nil =>
      rw [List.flatMap_nil, List.append_nil]
      exact .refl
  | cons id edges ih =>
      have head := each id List.mem_cons_self finished (edges ++ rest)
      have tail := ih (finished ++ graph.expand id)
        fun other member => each other (List.mem_cons_of_mem _ member)
      rw [List.flatMap_cons, ← List.append_assoc]
      exact head.trans tail

/-- Splicing replaces an edge by what it expands to, by induction on the slots that are met. -/
theorem NoPlaceholderCycle.spliceSteps_edge {graph : Graph} (noCycle : graph.NoPlaceholderCycle)
    (id : Nat) (finished rest : List Nat)
    : ReflTransGen graph.SpliceStep (finished, id :: rest)
        (finished ++ graph.expand id, rest) := by
  cases gone : (graph.node id).isPlaceholder with
  | false =>
      rw [expand_of_kept gone]
      exact .single (.keep gone)
  | true =>
      rw [noCycle.expand_of_placeholder gone]
      refine .head (.replace gone) (spliceSteps_of_each finished fun target successor => ?_)
      have fewer := noCycle.ncard_passed_lt ⟨gone, successor⟩
      exact noCycle.spliceSteps_edge target
termination_by (graph.passed id).ncard

/-- Splicing the edges of a slot comes to an end with its expanded edges. -/
theorem NoPlaceholderCycle.spliceSteps {graph : Graph} (noCycle : graph.NoPlaceholderCycle)
    (id : Nat)
    : ReflTransGen graph.SpliceStep ([], graph.next id) (graph.expandedNext id, []) := by
  have steps : ReflTransGen graph.SpliceStep ([], graph.next id ++ [])
      ([] ++ graph.expandedNext id, []) :=
    spliceSteps_of_each [] fun target _ => noCycle.spliceSteps_edge target
  rw [List.append_nil, List.nil_append] at steps
  exact steps

end Dialogue.Graph
