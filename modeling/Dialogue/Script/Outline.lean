import Dialogue.Graph.Node

/-! Outlines: the nesting of a script's scopes and choices blocks, with the lines they stand on. -/

namespace Dialogue

mutual

/-- A run of lines up to what closes it. Every part carries its line number. -/
inductive Scope where
  | beat (beat : Beat) (line : Nat) (rest : Scope)
  | block (line : Nat) (branches : Branches) (rest : Scope)
  /-- Closed by the tag that ends the dialogue. -/
  | ended (line : Nat)
  /-- Closed by the tag that goes on after the enclosing block. -/
  | dead (line : Nat)
  /-- Closed by nothing; `line` is the last one. -/
  | runsOut (line : Nat)
  /-- Closed by nothing, and with nothing to go on with. -/
  | unfilled

/-- The branches of a choices block. -/
inductive Branches where
  | nil
  | cons (guard : Guard) (body : Scope) (rest : Branches)

end

/-- Whether a dialogue can go on from the end of a scope to what follows. -/
def Scope.isLoose : Scope → Bool
  | .beat _ _ rest => rest.isLoose
  | .block _ _ rest => rest.isLoose
  | .dead _ | .runsOut _ => true
  | .ended _ | .unfilled => false

/-- Whether one of the branches can go on after the block. -/
def Branches.anyLoose : Branches → Bool
  | .nil => false
  | .cons _ body rest => body.isLoose || rest.anyLoose

def Branches.guards : Branches → List Guard
  | .nil => []
  | .cons guard _ rest => guard :: rest.guards

/-- The scope of a whole dialogue. When its lines run out there is nothing to go on with, unless
branches of a block on the last lines are `waiting` to go on.
-/
def Scope.settle (waiting : Bool) : Scope → Scope
  | .beat shown line rest => .beat shown line (rest.settle false)
  | .block line branches rest => .block line branches (rest.settle branches.anyLoose)
  | .runsOut line => if waiting then .runsOut line else .unfilled
  | closing => closing

end Dialogue
