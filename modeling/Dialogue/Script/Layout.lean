import Dialogue.Graph.Basic
import Dialogue.Script.Outline

/-! Laying an outline out as a graph. A scope takes as many consecutive slots as it has parts, so
the number of every slot, and with it every edge, follows from where the scope starts.
-/

namespace Dialogue

mutual

/-- The number of slots that a scope takes. -/
def Scope.size : Scope → Nat
  | .beat _ _ rest => rest.size + 1
  | .block _ branches rest => branches.size + rest.size + 1
  | .ended _ | .dead _ | .runsOut _ | .unfilled => 1

def Branches.size : Branches → Nat
  | .nil => 0
  | .cons _ body rest => body.size + rest.size

end

/-- The first slots of the branches' bodies, when the slots of the branches start at `base`. -/
def Branches.heads (base : Nat) : Branches → List Nat
  | .nil => []
  | .cons _ body rest => base :: rest.heads (base + body.size)

mutual

/-- The slots of a scope, the first of which has the number `base`. A loose end goes on at `exit`,
and the loose ends of a block's branches at the slot after the last of theirs.
-/
def Scope.slots (base exit : Nat) : Scope → List Slot
  | .beat beat line rest => ⟨.beat beat, line, [base + 1]⟩ :: rest.slots (base + 1) exit
  | .block line branches rest =>
      ⟨.choice branches.guards, line, branches.heads (base + 1)⟩
        :: branches.slots (base + 1) (base + 1 + branches.size)
        ++ rest.slots (base + 1 + branches.size) exit
  | .ended line => [⟨.ending, line, []⟩]
  | .dead line => [⟨.dead, line, [exit]⟩]
  | .runsOut line => [⟨.dead, line, [exit]⟩]
  | .unfilled => [⟨.empty, 0, []⟩]

/-- The slots of branches, the first of which has the number `base`. Their loose ends go on at
`exit`.
-/
def Branches.slots (base exit : Nat) : Branches → List Slot
  | .nil => []
  | .cons _ body rest => body.slots base exit ++ rest.slots (base + body.size) exit

end

/-- The graph of a whole dialogue: its start, its slots, and an ending if its end is loose. -/
def Scope.layout (scope : Scope) : Graph :=
  {
    slots :=
      ⟨.start, 0, [1]⟩ :: scope.slots 1 (scope.size + 1)
        ++ (if scope.isLoose then [⟨.ending, 0, []⟩] else [])
    root := 0
  }

end Dialogue
