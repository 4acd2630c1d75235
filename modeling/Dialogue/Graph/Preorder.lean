import Dialogue.Graph.Basic

/-! Depth-first preorder: the slots that paths from the root reach, in the order in which a walk
that takes successors from left to right first enters them.
-/

namespace Dialogue

/-- The first number left once those that are not unseen are passed over is unseen. -/
theorem mem_of_dropWhile_eq_cons {unseen waiting rest : List Nat} {id : Nat}
    (h : waiting.dropWhile (· ∉ unseen) = id :: rest)
    : id ∈ unseen := by
  have failed := List.head?_dropWhile_not (· ∉ unseen) waiting
  rw [h] at failed
  simpa using failed

/-- Enters the waiting numbers in turn, passing over those that are no longer unseen. The successors
of a number wait in front of the rest.
-/
def enterAll (next : Nat → List Nat) (unseen waiting : List Nat) : List Nat :=
  match _first : waiting.dropWhile (· ∉ unseen) with
  | [] => []
  | id :: rest => id :: enterAll next (unseen.erase id) (next id ++ rest)
termination_by unseen.length
decreasing_by
  have found := mem_of_dropWhile_eq_cons _first
  have shorter := List.length_erase_of_mem found
  have positive := List.length_pos_of_mem found
  omega

/-- The numbers below `size` that a walk along `next` enters from `root`. -/
def preorder (next : Nat → List Nat) (size root : Nat) : List Nat :=
  enterAll next (List.range size) [root]

namespace Graph

/-- The slots reachable from the root, in depth-first preorder. -/
def reachable (graph : Graph) : List Nat :=
  preorder graph.next graph.size graph.root

/-- Whether a placeholder is reachable. -/
def hasPlaceholders (graph : Graph) : Bool :=
  graph.reachable.any fun id => (graph.node id).isPlaceholder

/-- A slot as one line of text: number, source line, node and successors. -/
def renderSlot (graph : Graph) (id : Nat) : String :=
  let successors := (graph.next id).map fun successor => "#" ++ toString successor
  "#" ++ toString id ++ " (line " ++ toString (graph.line id) ++ "): "
    ++ (graph.node id).render ++ " -> [" ++ String.intercalate ", " successors ++ "]"

def render (graph : Graph) : String :=
  String.join (graph.reachable.map fun id => graph.renderSlot id ++ "\n")

end Graph

end Dialogue
