import Dialogue.Json.Reader

/-! Which lint checks are on, and how a JSON text says so. -/

namespace Dialogue.Lint

/-- The checks of guards against the options that they name. -/
structure ReferenceChecks where
  enabled : Bool := true
  thresholds : Bool := true
  duplicates : Bool := true
  deriving Repr, DecidableEq

/-- The checks of what the dialogue can reach and what it uses. -/
structure FlowChecks where
  enabled : Bool := true
  unreachable : Bool := true
  unusedOptions : Bool := true
  deriving Repr, DecidableEq

/-- The checks of both groups. All are on unless something else is said. -/
structure Config where
  references : ReferenceChecks := {}
  flow : FlowChecks := {}
  deriving Repr, DecidableEq

/-- The settings of these names: the members of an object, none of which may be given twice, or
the items of an array, which may be shorter. Other members are ignored.
-/
def settings? (names : List String) : Json → Option (List (Option Json))
  | .object members =>
      let given := (members.map Prod.fst).filter fun name => names.contains name
      if given.Nodup then some (names.map fun name => members.lookup name) else none
  | .array items =>
      if items.length ≤ names.length then some (names.zipIdx.map fun (_, index) => items[index]?)
      else none
  | _ => none

def switch? : Option Json → Option Bool
  | none => some true
  | some json => json.bool?

def switches? (names : List String) (json : Json) : Option (Bool × Bool × Bool) := do
  let [first, second, third] ← settings? names json | none
  return (← switch? first, ← switch? second, ← switch? third)

/-- The reference checks of a setting. -/
def ReferenceChecks.ofSetting? : Option Json → Option ReferenceChecks
  | none => some {}
  | some json => do
      let (enabled, thresholds, duplicates) ←
        switches? ["enabled", "check_thresholds", "check_duplicates"] json
      return { enabled, thresholds, duplicates }

/-- The flow checks of a setting. -/
def FlowChecks.ofSetting? : Option Json → Option FlowChecks
  | none => some {}
  | some json => do
      let (enabled, unreachable, unusedOptions) ←
        switches? ["enabled", "check_unreachable", "check_unused_options"] json
      return { enabled, unreachable, unusedOptions }

/-- The configuration of a JSON text. -/
def Config.ofText? (text : String) : Option Config := do
  let [references, flow] ← settings? ["references", "flow"] (← Json.read? text) | none
  return {
    references := ← ReferenceChecks.ofSetting? references
    flow := ← FlowChecks.ofSetting? flow
  }

end Dialogue.Lint
