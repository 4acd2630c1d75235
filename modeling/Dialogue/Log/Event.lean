import Dialogue.Graph.Node

/-! What compiling and playing a dialogue report about their progress. -/

namespace Dialogue

/-- How much a message matters, the most important first. -/
inductive Level where
  | error
  | warn
  | info
  | debug
  | trace
  deriving Repr, DecidableEq

/-- The part of the program that a message comes from. -/
inductive Category where
  | parser
  | engine
  | flow
  deriving Repr, DecidableEq

/-- Something worth reporting. -/
inductive Event where
  /-- A choices block and the line that closes it were found. -/
  | blockFound (line close branches : Nat)
  /-- A branch of the block at `line` was closed before its last line. -/
  | branchStopped (guard : Guard) (line last : Nat)
  /-- Lines follow the one that closed the dialogue. -/
  | linesIgnored (count last : Nat)
  | spliced (edges : Nat)
  | compiled (nodes reachable : Nat)
  | started (options : Nat)
  /-- A choice went on to its branch of this number, counted from 1. -/
  | branchTaken (line number branches : Nat) (fallback : Bool)
  | shown (line : Nat) (node : Node)
  | answered (option : String) (index : Nat)
  | finished (line : Nat)
  deriving Repr, DecidableEq

namespace Event

def level : Event → Level
  | linesIgnored .. => .warn
  | blockFound .. | shown .. => .trace
  | _ => .debug

def category : Event → Category
  | blockFound .. | branchStopped .. | linesIgnored .. | spliced .. | compiled .. => .parser
  | _ => .flow

/-- The wording of the event. -/
def message : Event → String
  | blockFound line close branches =>
      "choices block at line " ++ toString line ++ " closes at line " ++ toString close
        ++ " with " ++ toString branches ++ " branches"
  | branchStopped guard line last =>
      "branch " ++ guard.render ++ " of block at line " ++ toString line
        ++ " stops early at line " ++ toString last
  | linesIgnored count last =>
      "ignoring " ++ toString count ++ " lines after the dialogue ends at line " ++ toString last
  | spliced edges => "fix-up spliced " ++ toString edges ++ " placeholder edges"
  | compiled nodes reachable =>
      "compiled " ++ toString nodes ++ " nodes, " ++ toString reachable ++ " reachable"
  | started options => "engine started with " ++ toString options ++ " declared options"
  | branchTaken line number branches fallback =>
      "choice at line " ++ toString line ++ " takes branch " ++ toString number
        ++ " of " ++ toString branches ++ (if fallback then " (fallback)" else "")
  | shown line node => "line " ++ toString line ++ ": " ++ node.render
  | answered option index => "option '" ++ option ++ "' answered with " ++ toString index
  | finished line => "dialogue ended at line " ++ toString line

end Event

end Dialogue
