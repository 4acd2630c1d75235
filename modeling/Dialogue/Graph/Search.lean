import Dialogue.Graph.Basic

/-! Searching with a stack: the successors of a slot are pushed in reverse, so that the first of
them is popped next. A slot may stand on the stack more than once, since it is marked only when it
is popped.
-/

namespace Dialogue

/-- A moment of a search: which slots are marked, those that were entered, in order, and the stack,
the last number of which is popped next.
-/
structure Search where
  marked : List Bool
  order : List Nat
  stack : List Nat
  deriving Repr, DecidableEq

namespace Search

def start (graph : Graph) : Search :=
  ⟨List.replicate graph.size false, [], [graph.root]⟩

/-- Pops a number and enters its slot unless that is marked. There is no step from an empty stack or
out of the graph.
-/
def step (graph : Graph) : Search → Option Search
  | ⟨marked, order, stack⟩ => do
      let id ← stack.getLast?
      if ← marked[id]? then
        some ⟨marked, order, stack.dropLast⟩
      else
        let slot ← graph.slots[id]?
        some ⟨marked.set id true, order ++ [id], stack.dropLast ++ slot.next.reverse⟩

end Search

end Dialogue
