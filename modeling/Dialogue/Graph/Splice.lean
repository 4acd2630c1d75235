import Dialogue.Graph.Preorder

/-! Splicing: every edge to a placeholder is replaced by the placeholder's own edges, until none
is left in the reachable part of the graph.
-/

namespace Dialogue.Graph

/-- The nodes that an edge to `id` leads to once placeholders have given way to their successors.
The search goes `depth` placeholders deep.
-/
def expandTo (graph : Graph) : (depth : Nat) → (id : Nat) → List Nat
  | 0, _ => []
  | depth + 1, id =>
      if (graph.node id).isPlaceholder then (graph.next id).flatMap (graph.expandTo depth)
      else [id]

/-- The nodes that an edge to `id` leads to. No path meets more placeholders than there are slots
unless it meets one of them twice.
-/
def expand (graph : Graph) (id : Nat) : List Nat :=
  graph.expandTo (graph.size + 1) id

/-- The successors of a number once placeholders have given way to theirs. -/
def expandedNext (graph : Graph) (id : Nat) : List Nat :=
  (graph.next id).flatMap graph.expand

/-- The slots whose edges are spliced: those that spliced edges lead to from the root. -/
def spliced (graph : Graph) : List Nat :=
  preorder graph.expandedNext graph.size graph.root

/-- The graph with the placeholders spliced out of its reachable part. No slot is removed. -/
def splice (graph : Graph) : Graph :=
  let spliced := graph.spliced
  {
    graph with
    slots := graph.slots.mapIdx fun id slot =>
      if id ∈ spliced then { slot with next := graph.expandedNext id } else slot
  }

/-- The number of placeholder edges that are replaced on the way from an edge to `id`. -/
def placeholderEdges (graph : Graph) : (depth : Nat) → (id : Nat) → Nat
  | 0, _ => 0
  | depth + 1, id =>
      if (graph.node id).isPlaceholder then
        ((graph.next id).map (graph.placeholderEdges depth)).foldl (· + ·) 0 + 1
      else 0

/-- The number of edges that splicing replaces in all. -/
def splicedEdges (graph : Graph) : Nat :=
  let edges := graph.spliced.flatMap graph.next
  (edges.map (graph.placeholderEdges (graph.size + 1))).foldl (· + ·) 0

end Dialogue.Graph
