import Dialogue.Graph.Basic
import Dialogue.Json.Basic

/-! What a playthrough remembers: the last answer to every option that it knows of. -/

namespace Dialogue

/-- The declared options in the order of their names' code points, with their last answers. -/
structure Memory where
  entries : List (String × Option Nat)
  sorted : entries.Pairwise (fun left right => left.1 < right.1)
  deriving Repr, DecidableEq

namespace Memory

/-- Sets the answer of a name in a sorted list. -/
def putEntry (name : String) (answer : Option Nat)
    : List (String × Option Nat) → List (String × Option Nat)
  | [] => [(name, answer)]
  | (other, old) :: rest =>
      if other < name then (other, old) :: putEntry name answer rest
      else if other = name then (name, answer) :: rest
      else (name, answer) :: (other, old) :: rest

/-- Putting adds at most the entry itself, by induction on the list. -/
theorem mem_of_mem_putEntry {name : String} {answer : Option Nat}
    {entries : List (String × Option Nat)} {entry : String × Option Nat}
    (member : entry ∈ putEntry name answer entries)
    : entry = (name, answer) ∨ entry ∈ entries := by
  induction entries with
  | nil => exact Or.inl (List.mem_singleton.mp member)
  | cons head rest ih =>
      unfold putEntry at member
      split at member
      · rcases List.mem_cons.mp member with rfl | member
        · simp
        · exact (ih member).imp_right (List.mem_cons_of_mem _)
      · split at member
        · exact (List.mem_cons.mp member).imp_right (List.mem_cons_of_mem _)
        · exact List.mem_cons.mp member

/-- A sorted list stays sorted, by induction on the list. -/
theorem pairwise_putEntry {name : String} {answer : Option Nat}
    {entries : List (String × Option Nat)}
    (sorted : entries.Pairwise (fun left right => left.1 < right.1))
    : (putEntry name answer entries).Pairwise (fun left right => left.1 < right.1) := by
  induction entries with
  | nil => simp [putEntry]
  | cons head rest ih =>
      obtain ⟨above, sortedRest⟩ := List.pairwise_cons.mp sorted
      unfold putEntry
      split
      · next before =>
          refine List.pairwise_cons.mpr ⟨fun entry member => ?_, ih sortedRest⟩
          rcases mem_of_mem_putEntry member with rfl | member
          · exact before
          · exact above entry member
      · next notBefore =>
          split
          · next same =>
              subst same
              exact List.pairwise_cons.mpr ⟨above, sortedRest⟩
          · next different =>
              have after : name < head.1 := by
                refine String.not_le.mp fun below => different ?_
                exact String.le_antisymm below (String.not_lt.mp notBefore)
              refine List.pairwise_cons.mpr ⟨fun entry member => ?_, sorted⟩
              rcases List.mem_cons.mp member with rfl | member
              · exact after
              · exact String.lt_trans after (above entry member)

def empty : Memory :=
  ⟨[], .nil⟩

/-- Sets the answer of an option, or declares the option without one. -/
def put (name : String) (answer : Option Nat) (memory : Memory) : Memory :=
  ⟨putEntry name answer memory.entries, pairwise_putEntry memory.sorted⟩

/-- The entry of an option, which is none for an option that is not declared. -/
def entry? (memory : Memory) (name : String) : Option (Option Nat) :=
  memory.entries.lookup name

def isDeclared (memory : Memory) (name : String) : Bool :=
  (memory.entry? name).isSome

/-- Declares an option. One that is declared already keeps its answer. -/
def declare (name : String) (memory : Memory) : Memory :=
  if memory.isDeclared name then memory else memory.put name none

/-- Records an answer, the index of a choice counted from 0. -/
def record (name : String) (index : Nat) (memory : Memory) : Memory :=
  memory.put name (some index)

/-- The last answer to an option, if it is declared and has one. -/
def get? (memory : Memory) (name : String) : Option Nat :=
  (memory.entry? name).join

/-- Whether a guard holds. None holds for an option that is not declared. -/
def satisfies (memory : Memory) (guard : Guard) : Bool :=
  match memory.entry? guard.option with
  | some (some index) => index + 1 = guard.threshold
  | some none => guard.threshold = 0
  | none => false

def size (memory : Memory) : Nat :=
  memory.entries.length

/-- Whether no option is declared. -/
def isEmpty (memory : Memory) : Bool :=
  memory.entries.isEmpty

def answerToJson : Option Nat → Json
  | some index => .natural index
  | none => .null

def answerOfJson? : Json → Option (Option Nat)
  | .null => some none
  | json => (json.natural? maxIndex).map some

/-- The document of a memory: its options and their answers as the members of one object. -/
def toJson (memory : Memory) : Json :=
  .object (memory.entries.map fun (name, answer) => (name, answerToJson answer))

/-- The memory of a document. Of several members of a name the last one counts. -/
def ofJson? (json : Json) : Option Memory := do
  let entries ← (← json.members?).mapM fun (name, answer) =>
    (answerOfJson? answer).map (name, ·)
  return entries.foldl (fun memory (name, answer) => memory.put name answer) empty

end Memory

end Dialogue
