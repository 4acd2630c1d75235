import Dialogue.Graph.Node

/-! Dialogue graphs: nodes in numbered slots, with the numbers of their successors. -/

namespace Dialogue

/-- The largest line number, slot number and choice index. -/
def maxIndex : Nat :=
  UInt64.size - 1

/-- A node with the source line it comes from, 0 when it comes from none, and its successors. -/
structure Slot where
  node : Node
  line : Nat
  next : List Nat
  deriving Repr, DecidableEq

/-- A dialogue graph, which starts at the slot numbered `root`. -/
structure Graph where
  slots : List Slot
  root : Nat
  deriving Repr, DecidableEq

namespace Graph

def size (graph : Graph) : Nat :=
  graph.slots.length

/-- Whether the graph holds no more than its start. -/
def isEmpty (graph : Graph) : Bool :=
  graph.size ≤ 1

/-- The slot of a number; outside the graph, an empty slot that leads nowhere. -/
def slot (graph : Graph) (id : Nat) : Slot :=
  graph.slots[id]?.getD ⟨.empty, 0, []⟩

def node (graph : Graph) (id : Nat) : Node :=
  (graph.slot id).node

def line (graph : Graph) (id : Nat) : Nat :=
  (graph.slot id).line

def next (graph : Graph) (id : Nat) : List Nat :=
  (graph.slot id).next

def ids (graph : Graph) : List Nat :=
  List.range graph.size

/-- The root and every successor are numbers of slots. -/
def InRange (graph : Graph) : Prop :=
  graph.root < graph.size ∧ ∀ slot ∈ graph.slots, ∀ id ∈ slot.next, id < graph.size

instance (graph : Graph) : Decidable graph.InRange :=
  inferInstanceAs (Decidable (_ ∧ _))

end Graph

end Dialogue
