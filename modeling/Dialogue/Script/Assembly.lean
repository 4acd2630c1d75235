import Dialogue.Script.Compile

/-! Assembling the graph of a script slot by slot while its lines are read. A scope goes on in an
empty slot, which gets its node when a line has one for it. The slots from which a scope goes on to
what follows its block are its loose ends: they are handed to the enclosing scope, where they wait
for the next slot that gets a node.
-/

namespace Dialogue

/-- What is done while a graph is assembled. -/
inductive Act where
  /-- A slot is added at the end. -/
  | push (node : Node) (line : Nat)
  /-- A slot gets its node. -/
  | fill (id : Nat) (node : Node) (line : Nat)
  /-- A slot gets one more successor. -/
  | link (source target : Nat)
  /-- The call that reads a scope returns, with the loose ends of the scope. -/
  | leave (loose : List Nat)
  deriving Repr, DecidableEq

/-- The links of waiting loose ends to a slot. -/
def Act.links (waiting : List Nat) (target : Nat) : List Act :=
  waiting.map fun source => .link source target

/-- A slot gets its node, and the loose ends that are waiting are linked to it. -/
def Act.emit (current : Nat) (waiting : List Nat) (node : Node) (line : Nat) : List Act :=
  .fill current node line :: Act.links waiting current

namespace Graph

/-- The graph that holds no more than its start. -/
def bare : Graph :=
  ⟨[⟨.start, 0, []⟩], 0⟩

def perform (graph : Graph) : Act → Graph
  | .push node line => { graph with slots := graph.slots ++ [⟨node, line, []⟩] }
  | .fill id node line =>
      { graph with slots := graph.slots.modify id fun slot => { slot with node, line } }
  | .link source target =>
      {
        graph with
        slots := graph.slots.modify source fun slot => { slot with next := slot.next ++ [target] }
      }
  | .leave _ => graph

/-- The graph after these acts, one after the other. -/
def replay (graph : Graph) (acts : List Act) : Graph :=
  acts.foldl perform graph

end Graph

/-- A moment of assembling: all that has been done so far, and the option names that are known. -/
structure Assembly where
  history : List Act
  known : List String
  deriving Repr, DecidableEq

namespace Assembly

def start : Assembly :=
  ⟨[], []⟩

/-- The graph so far. -/
def graph (assembly : Assembly) : Graph :=
  Graph.bare.replay assembly.history

/-- The number that the next slot to be added gets. -/
def fresh (assembly : Assembly) : Nat :=
  assembly.graph.size

def perform (assembly : Assembly) (acts : List Act) : Assembly :=
  { assembly with history := assembly.history ++ acts }

def learn (assembly : Assembly) (name : String) : Assembly :=
  { assembly with known := name :: assembly.known }

/-- The slot at which a scope goes on gets a beat and is linked to a new slot, at which the scope
goes on from there.
-/
def present (assembly : Assembly) (current : Nat) (waiting : List Nat) (shown : Beat) (line : Nat)
    : Nat × Assembly :=
  let filled := assembly.perform (Act.emit current waiting (.beat shown) line)
  (filled.fresh, filled.perform [.push .empty 0, .link current filled.fresh])

/-- Reads a scope of its own in a new slot, by `read`. The result is the number of that slot, with
the loose ends of the scope.
-/
def scope (assembly : Assembly)
    (read : Nat → Assembly → Except ScriptError (List Nat × Assembly))
    : Except ScriptError (Nat × List Nat × Assembly) := do
  let head := assembly.fresh
  let (loose, assembly) ← read head (assembly.perform [.push .empty 0])
  return (head, loose, assembly.perform [.leave loose])

end Assembly

namespace Line

/-- Reads the bodies of branches, each as a scope of its own by `read`, and links the choice to
where they begin. The result is the loose ends of all of them.
-/
def assembleBranches (choice : Nat)
    : (branches : List Branch)
      → (read : ∀ branch ∈ branches,
          Nat → Assembly → Except ScriptError (List Nat × Assembly))
      → Assembly
      → Except ScriptError (List Nat × Assembly)
  | [], _, assembly => .ok ([], assembly)
  | branch :: rest, read, assembly => do
      let (head, loose, assembly) ← assembly.scope (read branch List.mem_cons_self)
      let (others, assembly) ← assembleBranches choice rest
        (fun other member => read other (List.mem_cons_of_mem _ member))
        (assembly.perform [.link choice head])
      return (loose ++ others, assembly)

/-- Reads on in a scope from the line at `cursor` up to what closes it or to `stop`. The scope goes
on in the slot `current`, and the loose ends of the block right before are `waiting`. When the lines
of a branch run out the dialogue goes on behind its block; when those of the whole script do, there
is only something to go on with if loose ends are waiting.
-/
def assembleFrom (lines : List Line) (declared : List String) (inBranch : Bool) (stop cursor : Nat)
    (current : Nat) (waiting : List Nat) (assembly : Assembly)
    : Except ScriptError (List Nat × Assembly) :=
  match _here : before? lines stop cursor with
  | none =>
      if inBranch || !waiting.isEmpty then
        let number := numberAt lines (stop - 1)
        .ok ([current], assembly.perform (Act.emit current waiting .dead number))
      else .ok ([], assembly)
  | some line =>
      match line.statement assembly.known with
      | .error error => .error error
      | .ok .terminator =>
          assembleFrom lines declared inBranch stop (cursor + 1) current waiting assembly
      | .ok (.label _) =>
          assembleFrom lines declared inBranch stop (cursor + 1) current waiting assembly
      | .ok .ending =>
          .ok ([], assembly.perform (Act.emit current waiting .ending line.number))
      | .ok .dead =>
          .ok ([current], assembly.perform (Act.emit current waiting .dead line.number))
      | .ok (.scene content) =>
          let (next, assembly) := assembly.present current waiting (.scene content) line.number
          assembleFrom lines declared inBranch stop (cursor + 1) next [] assembly
      | .ok (.say speaker content) =>
          let (next, assembly) :=
            assembly.present current waiting (.say speaker content) line.number
          assembleFrom lines declared inBranch stop (cursor + 1) next [] assembly
      | .ok (.think speaker content) =>
          let (next, assembly) :=
            assembly.present current waiting (.think speaker content) line.number
          assembleFrom lines declared inBranch stop (cursor + 1) next [] assembly
      | .ok (.option name) =>
          match _found : readOption lines cursor name with
          | .error error => .error error
          | .ok (choices, close) =>
              let (next, assembly) :=
                (assembly.learn name).present current waiting (.option name choices) line.number
              assembleFrom lines declared inBranch stop (close + 1) next [] assembly
      | .ok .choices =>
          match _found : scanBlock lines declared cursor (cursor + 1) with
          | .error error => .error error
          | .ok block => do
              let guards := block.labels.map Label.guard
              let (loose, assembly) ← assembleBranches current block.branches
                (fun branch _member head =>
                  assembleFrom lines declared true branch.stop branch.start head [])
                (assembly.perform (Act.emit current waiting (.choice guards) line.number))
              assembleFrom lines declared inBranch stop block.reconverge assembly.fresh loose
                (assembly.perform [.push .empty 0])
termination_by lines.length - cursor
decreasing_by
  all_goals have inside := lt_length_of_before? _here
  all_goals try have after := lt_of_readOption _found
  all_goals try have bounds := (scanBlock_bounds _found).1
  all_goals try have later := lt_label_of_scanBlock _found _ _member
  all_goals try simp only [Block.reconverge, Branch.start]
  all_goals omega

/-- Reads the scope of a whole script, to which the start is linked. Loose ends that are left lead
to an ending of their own.
-/
def assembleScript (lines : List Line) (declared : List String) : Except ScriptError Assembly := do
  let (head, loose, assembly) ←
    Assembly.start.scope fun head => assembleFrom lines declared false lines.length 0 head []
  let linked := assembly.perform [.link 0 head]
  if loose.isEmpty then
    return linked
  return linked.perform (.push .ending 0 :: Act.links loose linked.fresh)

/-- All that is done to assemble the graph of some lines, up to where its placeholders are spliced
out.
-/
def assemble (lines : List Line) : Except ScriptError (List Act) := do
  if lines.isEmpty then
    throw .empty
  let declared ← optionNames lines
  let assembly ← assembleScript lines declared
  return assembly.history

end Line

end Dialogue
