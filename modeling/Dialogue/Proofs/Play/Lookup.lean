import Dialogue.Play.Engine

/-! Looking options up in a memory: what declaring them and recording answers changes. -/

namespace Dialogue

namespace Memory

theorem lookup_cons (name : String) (answer : Option Nat) (rest : List (String × Option Nat))
    (other : String)
    : ((name, answer) :: rest).lookup other
        = if other = name then some answer else rest.lookup other := by
  by_cases same : other = name
  · simp [same]
  · have differs : (other == name) = false := beq_false_of_ne same
    simp [List.lookup_cons, differs, same]

/-- Putting an entry changes what is found for its name only, by induction on the list. -/
theorem lookup_putEntry (name : String) (answer : Option Nat) (entries : List (String × Option Nat))
    (other : String)
    : (putEntry name answer entries).lookup other
        = if other = name then some answer else entries.lookup other := by
  induction entries with
  | nil => exact lookup_cons name answer [] other
  | cons first rest ih =>
      obtain ⟨known, old⟩ := first
      unfold putEntry
      split
      · next before =>
          have different : known ≠ name := fun same => String.lt_irrefl name (same ▸ before)
          rw [lookup_cons, lookup_cons, ih]
          by_cases same : other = known
          · simp [same, different]
          · simp [same]
      · split
        · next same =>
            subst same
            rw [lookup_cons, lookup_cons]
            split <;> rfl
        · exact lookup_cons name answer ((known, old) :: rest) other

theorem entry?_put (memory : Memory) (name : String) (answer : Option Nat) (other : String)
    : entry? (memory.put name answer) other
        = if other = name then some answer else memory.entry? other :=
  lookup_putEntry name answer memory.entries other

theorem entry?_record (memory : Memory) (name : String) (index : Nat) (other : String)
    : entry? (memory.record name index) other
        = if other = name then some (some index) else memory.entry? other :=
  memory.entry?_put name (some index) other

theorem get?_record (memory : Memory) (name : String) (index : Nat) (other : String)
    : (memory.record name index).get? other
        = if other = name then some index else memory.get? other := by
  unfold get?
  rw [entry?_record]
  split <;> rfl

/-- Declaring an option changes no answer. -/
@[simp] theorem get?_declare (memory : Memory) (name other : String)
    : (memory.declare name).get? other = memory.get? other := by
  unfold declare
  split
  · rfl
  · next new =>
      unfold get?
      rw [entry?_put]
      split
      · next same =>
          subst same
          have unknown : memory.entry? other = none := by simpa [isDeclared] using new
          rw [unknown]
          rfl
      · rfl

/-- A guard that asks for an answer holds if its option has this answer. -/
theorem satisfies_iff {memory : Memory} {guard : Guard} (asks : 0 < guard.threshold)
    : memory.satisfies guard = true ↔ memory.get? guard.option = some (guard.threshold - 1) := by
  unfold satisfies get?
  rcases memory.entry? guard.option with _ | _ | index
  · simp
  · simpa using Nat.ne_of_gt asks
  · simp
    omega

/-- Guards that name the option of an equal entry hold alike. -/
theorem satisfies_congr {memory other : Memory} {guard : Guard}
    (same : memory.entry? guard.option = other.entry? guard.option)
    : memory.satisfies guard = other.satisfies guard := by
  unfold satisfies
  rw [same]

end Memory

namespace Engine

/-- No option has an answer before the first step, by induction on the names that are declared. -/
@[simp] theorem get?_memory_start (graph : Graph) (name : String)
    : (start graph).memory.get? name = none := by
  have declaring (names : List String) (memory : Memory)
      : (names.foldl (fun memory name => memory.declare name) memory).get? name
        = memory.get? name := by
    induction names generalizing memory with
    | nil => rfl
    | cons first rest ih => simp [ih]
  exact declaring graph.optionNames .empty

/-- Going on changes no answer. -/
@[simp] theorem memory_advance (engine : Engine) : engine.advance.2.memory = engine.memory := by
  unfold advance
  repeat' split
  all_goals rfl

end Engine

end Dialogue
