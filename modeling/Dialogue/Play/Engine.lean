import Dialogue.Graph.Preorder
import Dialogue.Log.Event
import Dialogue.Play.Memory
import Dialogue.Play.Step

/-! The engine: one playthrough of a dialogue graph, from step to step. -/

namespace Dialogue

/-- A decision at a choice: the number of the branch taken, counted from 0, where it leads, and
whether it was taken because no guard decided.
-/
structure Decision where
  branch : Nat
  target : Nat
  fallback : Bool
  deriving Repr, DecidableEq

/-- The decision at a choice with these guards and successors. The first guard that holds picks
the successor at its own place, if there is one; otherwise the last successor is taken.
-/
def Memory.decide? (memory : Memory) (guards : List Guard) (successors : List Nat)
    : Option Decision :=
  let picked := (guards.findIdx? memory.satisfies).bind fun branch =>
    successors[branch]?.map fun target => ⟨branch, target, false⟩
  picked.or (successors.getLast?.map fun target => ⟨successors.length - 1, target, true⟩)

/-- The decisions taken from a node on, each with the number of its choice, and the first node
that is no choice. The latter is none when a choice has no successors or comes up a second time.
-/
def Graph.routeFrom (graph : Graph) (memory : Memory) (unseen : List Nat) (id : Nat)
    : List (Nat × Decision) × Option Nat :=
  match graph.node id with
  | .choice guards =>
      if id ∈ unseen then
        match memory.decide? guards (graph.next id) with
        | none => ([], none)
        | some decision =>
            let (decisions, target) := graph.routeFrom memory (unseen.erase id) decision.target
            ((id, decision) :: decisions, target)
      else ([], none)
  | _ => ([], some id)
termination_by unseen.length
decreasing_by
  rename_i found
  have shorter := List.length_erase_of_mem found
  have positive := List.length_pos_of_mem found
  omega

/-- The decisions taken from a node on, and the node that they lead to. -/
def Graph.route (graph : Graph) (memory : Memory) (id : Nat) : List (Nat × Decision) × Option Nat :=
  graph.routeFrom memory graph.ids id

/-- The node that decisions lead to from a node. -/
def Graph.resolve (graph : Graph) (memory : Memory) (id : Nat) : Option Nat :=
  (graph.route memory id).2

/-- An option that waits for an answer, with the number of its choices. -/
structure Prompt where
  option : String
  count : Nat
  deriving Repr, DecidableEq

/-- The prompt that a step opens. -/
def Step.prompt? : Step → Option Prompt
  | .beat (.option name choices) => some ⟨name, choices.length⟩
  | _ => none

/-- Why an engine refuses a call. -/
inductive EngineError where
  | awaitingSelection (option : String)
  | choiceOutOfRange (option : String) (index count : Nat)
  | unsurfaceable (line : Nat)
  deriving Repr, DecidableEq

/-- The wording of a refusal. -/
def EngineError.message : EngineError → String
  | awaitingSelection option => "option '" ++ option ++ "' is waiting for a selection"
  | choiceOutOfRange option index count =>
      "choice " ++ toString index ++ " is out of range for option '" ++ option ++ "' with "
        ++ toString count ++ " choices"
  | unsurfaceable line => "node at line " ++ toString line ++ " cannot be presented"

/-- A playthrough at some point: where it is, what it remembers and what it asks for. -/
structure Engine where
  graph : Graph
  position : Nat
  memory : Memory
  prompt : Option Prompt
  deriving Repr, DecidableEq

/-- The names of the options that a graph can present, with repetitions. -/
def Graph.optionNames (graph : Graph) : List String :=
  graph.reachable.filterMap fun id =>
    match graph.node id with
    | .beat (.option name _) => some name
    | _ => none

namespace Engine

/-- The engine before the first step. Every option that it can present is declared. -/
def start (graph : Graph) : Engine :=
  {
    graph
    position := graph.root
    memory := graph.optionNames.foldl (fun memory name => memory.declare name) .empty
    prompt := none
  }

def line (engine : Engine) : Nat :=
  engine.graph.line engine.position

def awaiting? (engine : Engine) : Option String :=
  engine.prompt.map Prompt.option

/-- The node that comes next: none where the dialogue ends. -/
def target? (engine : Engine) : Option Nat :=
  (engine.graph.next engine.position).head?.bind (engine.graph.resolve engine.memory)

/-- Goes on to the next step. There is none where the dialogue ends. -/
def advance (engine : Engine) : Except EngineError (Option Step) × Engine :=
  match engine.prompt with
  | some prompt => (.error (.awaitingSelection prompt.option), engine)
  | none =>
      match engine.target? with
      | none => (.ok none, engine)
      | some target =>
          match (engine.graph.node target).step? with
          | none => (.error (.unsurfaceable (engine.graph.line target)), engine)
          | some step =>
              (.ok (some step), { engine with position := target, prompt := step.prompt? })

/-- Answers the open prompt with the index of a choice. Without one nothing happens. -/
def select (index : Nat) (engine : Engine) : Except EngineError Unit × Engine :=
  match engine.prompt with
  | none => (.ok (), engine)
  | some prompt =>
      if index < prompt.count then
        (.ok (), { engine with memory := engine.memory.record prompt.option index, prompt := none })
      else (.error (.choiceOutOfRange prompt.option index prompt.count), engine)

/-- What the start of a playthrough reports. -/
def startEvents (engine : Engine) : List Event :=
  [.started engine.memory.size]

/-- What going on from here reports. -/
def advanceEvents (engine : Engine) : List Event :=
  match engine.prompt, (engine.graph.next engine.position).head? with
  | some _, _ => []
  | none, none => [.finished engine.line]
  | none, some next =>
      let (decisions, target) := engine.graph.route engine.memory next
      let taken := decisions.map fun (id, decision) =>
        Event.branchTaken (engine.graph.line id) (decision.branch + 1)
          (engine.graph.next id).length decision.fallback
      let shown := target.toList.filter fun id => (engine.graph.node id).step?.isSome
      taken ++ shown.map fun id => .shown (engine.graph.line id) (engine.graph.node id)

/-- What answering the open prompt reports. -/
def selectEvents (index : Nat) (engine : Engine) : List Event :=
  match engine.prompt with
  | some prompt => if index < prompt.count then [.answered prompt.option index] else []
  | none => []

end Engine

end Dialogue
