/-! The elements of a dialogue: what the player is shown, what decides a branch, and the nodes
that a graph is made of.
-/

namespace Dialogue

/-- The condition of a branch. It holds when `option` was answered with the choice of number
`threshold`, counted from 1, or, for the threshold 0, while `option` has no answer.
-/
structure Guard where
  option : String
  threshold : Nat
  deriving Repr, DecidableEq

def maxThreshold : Nat :=
  UInt32.size - 1

def Guard.render (guard : Guard) : String :=
  guard.option ++ "," ++ toString guard.threshold

theorem Guard.toList_render (guard : Guard)
    : guard.render.toList = guard.option.toList ++ ',' :: (toString guard.threshold).toList := by
  simp [render]

/-- What a dialogue presents before it goes on. -/
inductive Beat where
  | scene (content : String)
  | option (name : String) (choices : List String)
  | say (speaker content : String)
  | think (speaker content : String)
  deriving Repr, DecidableEq

/-- A node of a dialogue graph. A choice has one guard per successor, in order. The last two
kinds are placeholders: a dead node hands on to whatever follows the enclosing block, and an empty
one was never filled.
-/
inductive Node where
  | start
  | beat (beat : Beat)
  | ending
  | choice (guards : List Guard)
  | dead
  | empty
  deriving Repr, DecidableEq

/-- Whether splicing removes the node. -/
def Node.isPlaceholder : Node → Bool
  | .dead | .empty => true
  | _ => false

/-- The name of a beat's kind. -/
def Beat.kind : Beat → String
  | .scene _ => "scene"
  | .option _ _ => "option"
  | .say _ _ => "person_say"
  | .think _ _ => "person_think"

/-- The name of a node's kind. -/
def Node.kind : Node → String
  | .start => "start"
  | .beat shown => shown.kind
  | .ending => "end"
  | .choice _ => "choice"
  | .dead => "dead"
  | .empty => "empty"

/-- What a listing shows after the kind of a beat: whose it is, and what it holds. -/
def Beat.details : Beat → String
  | .scene content => " | | " ++ content
  | .option name choices => " | " ++ name ++ " | " ++ String.intercalate "; " choices
  | .say speaker content => " | " ++ speaker ++ " | " ++ content
  | .think speaker content => " | " ++ speaker ++ " | " ++ content

/-- A node as one line of text. -/
def Node.render (node : Node) : String :=
  match node with
  | .beat shown => shown.kind ++ shown.details
  | .choice guards => node.kind ++ " | | " ++ String.intercalate "; " (guards.map Guard.render)
  | _ => node.kind ++ " | |"

end Dialogue
