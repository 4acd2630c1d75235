import Dialogue.Proofs.Graph.Expansion

/-! Splicing on graphs whose edges all lead forward: it comes to an end, it keeps the edges
forward, and no edge of a spliced slot leads to a placeholder.
-/

namespace Dialogue.Graph

open Relation

/-- The graph with the edges of these slots expanded. -/
def spliceAt (graph : Graph) (ids : List Nat) : Graph :=
  {
    graph with
    slots := graph.slots.mapIdx fun id slot =>
      if id ∈ ids then { slot with next := graph.expandedNext id } else slot
  }

/-- Expanding the edges of some slots changes nothing else. Outside the graph there are no edges. -/
theorem slot_spliceAt (graph : Graph) (ids : List Nat) (id : Nat)
    : (graph.spliceAt ids).slot id
        = if id ∈ ids then { graph.slot id with next := graph.expandedNext id }
          else graph.slot id := by
  by_cases inside : id < graph.size
  · have found : graph.slots[id]? = some graph.slots[id] := List.getElem?_eq_getElem inside
    simp [Graph.slot, spliceAt, found]
  · have outside := slot_of_size_le (Nat.le_of_not_lt inside)
    have same : (graph.spliceAt ids).slot id = ⟨.empty, 0, []⟩ := by
      apply slot_of_size_le
      simpa [size, spliceAt] using inside
    simp [same, outside, expandedNext, next]

@[simp] theorem size_spliceAt (graph : Graph) (ids : List Nat)
    : (graph.spliceAt ids).size = graph.size := by
  simp [size, spliceAt]

@[simp] theorem root_spliceAt (graph : Graph) (ids : List Nat)
    : (graph.spliceAt ids).root = graph.root :=
  rfl

@[simp] theorem node_spliceAt (graph : Graph) (ids : List Nat) (id : Nat)
    : (graph.spliceAt ids).node id = graph.node id := by
  rw [node, slot_spliceAt]
  split <;> rfl

@[simp] theorem line_spliceAt (graph : Graph) (ids : List Nat) (id : Nat)
    : (graph.spliceAt ids).line id = graph.line id := by
  rw [line, slot_spliceAt]
  split <;> rfl

/-- A spliced slot has its expanded edges, and any other slot has the edges it had. -/
theorem next_spliceAt (graph : Graph) (ids : List Nat) (id : Nat)
    : (graph.spliceAt ids).next id
        = if id ∈ ids then graph.expandedNext id else graph.next id := by
  rw [next, slot_spliceAt]
  split <;> rfl

theorem slot_splice (graph : Graph) (id : Nat)
    : graph.splice.slot id
        = if id ∈ graph.spliced then { graph.slot id with next := graph.expandedNext id }
          else graph.slot id :=
  graph.slot_spliceAt graph.spliced id

@[simp] theorem size_splice (graph : Graph) : graph.splice.size = graph.size :=
  graph.size_spliceAt graph.spliced

@[simp] theorem root_splice (graph : Graph) : graph.splice.root = graph.root :=
  rfl

@[simp] theorem node_splice (graph : Graph) (id : Nat)
    : graph.splice.node id = graph.node id :=
  graph.node_spliceAt graph.spliced id

@[simp] theorem line_splice (graph : Graph) (id : Nat)
    : graph.splice.line id = graph.line id :=
  graph.line_spliceAt graph.spliced id

theorem next_splice (graph : Graph) (id : Nat)
    : graph.splice.next id
        = if id ∈ graph.spliced then graph.expandedNext id else graph.next id :=
  graph.next_spliceAt graph.spliced id

/-- The spliced slots are the reachable slots of the result: on them, both walks have the same
successors.
-/
theorem reachable_splice (graph : Graph) : graph.splice.reachable = graph.spliced := by
  unfold reachable spliced preorder
  rw [size_splice, root_splice]
  refine enterAll_congr fun id entered => ?_
  exact (next_splice graph id).trans (if_pos entered)

theorem next_splice_of_reachable {graph : Graph} {id : Nat}
    (reached : id ∈ graph.splice.reachable)
    : graph.splice.next id = graph.expandedNext id := by
  rw [reachable_splice] at reached
  rw [next_splice, if_pos reached]

-----------------------------------------------------------------------------------------
-- Expanding edges of forward graphs
-----------------------------------------------------------------------------------------

/-- Every edge leads from a slot to a later one. -/
def Forward (graph : Graph) : Prop :=
  ∀ source, ∀ target ∈ graph.next source, source < target ∧ target < graph.size

theorem Forward.lt_size_of_mem_slots {graph : Graph} (forward : graph.Forward)
    : ∀ slot ∈ graph.slots, ∀ id ∈ slot.next, id < graph.size := by
  intro slot member id successor
  obtain ⟨source, found⟩ := List.mem_iff_getElem?.mp member
  refine (forward source id ?_).2
  rwa [next, slot_of_getElem? found]

theorem Forward.noPlaceholderCycle {graph : Graph} (forward : graph.Forward)
    : graph.NoPlaceholderCycle := by
  apply noPlaceholderCycle_of_rank fun id => graph.size - id
  intro source target passes
  have later := forward source target passes.2
  omega

theorem Forward.expand_of_placeholder {graph : Graph} (forward : graph.Forward) {id : Nat}
    (gone : (graph.node id).isPlaceholder = true)
    : graph.expand id = (graph.next id).flatMap graph.expand :=
  forward.noPlaceholderCycle.expand_of_placeholder gone

/-- What an edge expands to does not lie before its target, by induction on the path there. -/
theorem Forward.le_of_mem_expand {graph : Graph} (forward : graph.Forward) {source target : Nat}
    (found : target ∈ graph.expand source)
    : source ≤ target := by
  have path := (of_mem_expandTo found).2
  clear found
  induction path with
  | refl => exact Nat.le_refl _
  | tail _ passes ih => exact Nat.le_trans ih (Nat.le_of_lt (forward _ _ passes.2).1)

/-- Expanded edges lead forward to nodes that are kept. -/
theorem Forward.of_mem_expandedNext {graph : Graph} (forward : graph.Forward)
    {source target : Nat} (found : target ∈ graph.expandedNext source)
    : source < target ∧ target < graph.size ∧ (graph.node target).isPlaceholder = false := by
  have kept := kept_of_mem_expandedNext found
  obtain ⟨middle, successor, below⟩ := List.mem_flatMap.mp found
  have later := (forward source middle successor).1
  have after := forward.le_of_mem_expand below
  exact ⟨by omega, lt_size_of_not_placeholder kept, kept⟩

theorem Forward.splice {graph : Graph} (forward : graph.Forward) : graph.splice.Forward := by
  intro source target successor
  rw [next_splice] at successor
  rw [size_splice]
  split at successor
  · obtain ⟨later, inside, -⟩ := forward.of_mem_expandedNext successor
    exact ⟨later, inside⟩
  · exact forward source target successor

theorem Forward.mem_reachable_iff {graph : Graph} (forward : graph.Forward)
    (inside : graph.root < graph.size) {id : Nat}
    : id ∈ graph.reachable ↔ Reaches graph.next graph.root id :=
  mem_preorder_iff inside fun source target successor => (forward source target successor).2

theorem Forward.mem_reachable_of_successor {graph : Graph} (forward : graph.Forward)
    {source target : Nat} (reached : source ∈ graph.reachable)
    (successor : target ∈ graph.next source)
    : target ∈ graph.reachable :=
  mem_preorder_of_successor reached successor (forward source target successor).2

theorem Forward.lt_of_transGen {graph : Graph} (forward : graph.Forward) {source target : Nat}
    (path : TransGen (fun source target => target ∈ graph.next source) source target)
    : source < target := by
  induction path with
  | single successor => exact (forward _ _ successor).1
  | tail _ successor ih => exact Nat.lt_trans ih (forward _ _ successor).1

end Dialogue.Graph
