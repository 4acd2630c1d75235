import Dialogue.Graph.Splice

/-! Splicing in place: a depth-first walk that rewrites the edges of every slot it enters and goes
on along the rewritten edges.
-/

namespace Dialogue

/-- The graph with other edges out of one slot. -/
def Graph.withNext (graph : Graph) (id : Nat) (edges : List Nat) : Graph :=
  { graph with slots := graph.slots.modify id fun slot => { slot with next := edges } }

/-- A moment of the walk: the graph as it has been rewritten so far, the slots that were entered and
those that are waiting, the next one first.
-/
structure Walk where
  graph : Graph
  visited : List Nat
  waiting : List Nat
  /-- The slot whose edges are being rewritten, and the position of the edge that comes next. -/
  rewriting : Option (Nat × Nat)
  deriving Repr, DecidableEq

namespace Walk

def start (graph : Graph) : Walk :=
  ⟨graph, [], [graph.root], none⟩

/-- Goes on with the next edge or, where no edges are being rewritten, with the next slot. An edge
to a placeholder gives way to the placeholder's own edges, the first of which is looked at next;
any other edge stays. There is no step from the end of the walk or out of the graph.
-/
def step : Walk → Option Walk
  | ⟨graph, visited, waiting, some (id, position)⟩ => do
      let edges := (← graph.slots[id]?).next
      match edges[position]? with
      | none => some ⟨graph, visited, edges ++ waiting, none⟩
      | some target =>
          let child ← graph.slots[target]?
          if child.node.isPlaceholder then
            let rewritten := edges.take position ++ child.next ++ edges.drop (position + 1)
            some ⟨graph.withNext id rewritten, visited, waiting, some (id, position)⟩
          else
            some ⟨graph, visited, waiting, some (id, position + 1)⟩
  | ⟨graph, visited, id :: waiting, none⟩ =>
      if id ∈ visited then some ⟨graph, visited, waiting, none⟩
      else some ⟨graph, id :: visited, waiting, some (id, 0)⟩
  | ⟨_, _, [], none⟩ => none

end Walk

end Dialogue
