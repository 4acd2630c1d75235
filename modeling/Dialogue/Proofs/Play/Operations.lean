import Mathlib.Data.Finset.Card
import Dialogue.Proofs.Json.Members
import Dialogue.Proofs.Play.Answers

/-! A memory is told by the operations that made it: it holds the names that they are about, each
with the last answer that they record for it.
-/

namespace Dialogue.Memory

-----------------------------------------------------------------------------------------
-- Operations
-----------------------------------------------------------------------------------------

/-- What can be done to a memory. -/
inductive Operation where
  | declare (name : String)
  | record (name : String) (index : Nat)
  deriving Repr, DecidableEq

namespace Operation

/-- The option that an operation is about. -/
def name : Operation → String
  | declare name => name
  | record name _ => name

/-- The answer that an operation records for an option of this name, if it records one. -/
def answer? (name : String) : Operation → Option Nat
  | declare _ => none
  | record other index => if name = other then some index else none

theorem answer?_of_ne {operation : Operation} {name : String} (other : name ≠ operation.name)
    : operation.answer? name = none := by
  cases operation with
  | declare _ => rfl
  | record _ _ => exact if_neg other

end Operation

/-- The memory after one more operation. -/
def perform (memory : Memory) : Operation → Memory
  | .declare name => memory.declare name
  | .record name index => memory.record name index

/-- The memory that operations make of an empty one, from the first to the last. -/
def ofOperations (operations : List Operation) : Memory :=
  operations.foldl perform empty

/-- The last of the answers that operations record for an option. -/
def lastAnswer? (operations : List Operation) (name : String) : Option Nat :=
  (operations.filterMap (Operation.answer? name)).getLast?

theorem lastAnswer?_append (operations : List Operation) (operation : Operation) (name : String)
    : lastAnswer? (operations ++ [operation]) name
        = (operation.answer? name).or (lastAnswer? operations name) := by
  rw [lastAnswer?, List.filterMap_append, List.getLast?_append]
  cases answered : operation.answer? name <;> simp [answered, lastAnswer?]

/-- Only operations about an option record answers for it. -/
theorem lastAnswer?_of_not_mem {operations : List Operation} {name : String}
    (absent : name ∉ operations.map Operation.name)
    : lastAnswer? operations name = none := by
  have silent : ∀ operation ∈ operations, operation.answer? name = none := by
    intro operation member
    apply Operation.answer?_of_ne
    rintro rfl
    exact absent (List.mem_map_of_mem member)
  rw [lastAnswer?, List.filterMap_eq_nil_iff.mpr silent, List.getLast?_nil]

-----------------------------------------------------------------------------------------
-- Entries
-----------------------------------------------------------------------------------------

theorem entry?_declare (memory : Memory) (name other : String)
    : entry? (memory.declare name) other
        = if other = name then some (memory.get? other) else memory.entry? other := by
  unfold declare
  split
  · next known =>
      obtain ⟨answer, found⟩ := Option.isSome_iff_exists.mp known
      split
      · next same =>
          subst same
          rw [get?, found]
          rfl
      · rfl
  · next new =>
      rw [entry?_put]
      split
      · next same =>
          subst same
          have unknown : memory.entry? other = none := by simpa [isDeclared] using new
          rw [get?, unknown]
          rfl
      · rfl

/-- An operation makes an entry for its option, with the answer that it records or else the one
that was there, and changes no other entry.
-/
theorem entry?_perform (memory : Memory) (operation : Operation) (name : String)
    : entry? (memory.perform operation) name
        = if name = operation.name then some ((operation.answer? name).or (memory.get? name))
          else memory.entry? name := by
  cases operation with
  | declare other => exact memory.entry?_declare other name
  | record other index =>
      rw [perform, entry?_record, Operation.name, Operation.answer?]
      split <;> rfl

/-- The names that operations are about have an entry each, with their last answer. By induction on
the operations, of which the last one is looked at first.
-/
theorem entry?_ofOperations (operations : List Operation) (name : String)
    : entry? (ofOperations operations) name
        = if name ∈ operations.map Operation.name then some (lastAnswer? operations name)
          else none := by
  induction operations using List.reverseRecOn with
  | nil => rfl
  | append_singleton operations operation ih =>
      have performed
          : ofOperations (operations ++ [operation])
            = (ofOperations operations).perform operation :=
        List.foldl_concat ..
      have answered : (ofOperations operations).get? name = lastAnswer? operations name := by
        rw [get?, ih]
        split
        · rfl
        · next absent => exact (lastAnswer?_of_not_mem absent).symm
      rw [performed, entry?_perform, lastAnswer?_append, answered, ih]
      by_cases same : name = operation.name
      · simp [same]
      · simp [same, Operation.answer?_of_ne same]

/-- The answers of a memory are the last ones that its operations record. -/
theorem get?_ofOperations (operations : List Operation) (name : String)
    : (ofOperations operations).get? name = lastAnswer? operations name := by
  rw [get?, entry?_ofOperations]
  split
  · rfl
  · next absent => exact (lastAnswer?_of_not_mem absent).symm

theorem mem_names_ofOperations_iff {operations : List Operation} {name : String}
    : name ∈ (ofOperations operations).names ↔ name ∈ operations.map Operation.name := by
  rw [mem_names_iff, isDeclared, entry?_ofOperations]
  split <;> simp [*]

/-- The code points of a text. -/
def codePoints (text : String) : List Nat :=
  text.toList.map Char.toNat

theorem codePoints_lt_codePoints {left right : String} (before : left < right)
    : codePoints left < codePoints right :=
  List.map_lt (fun _ _ less => UInt32.lt_iff_toNat_lt.mp less) (String.lt_iff.mp before)

theorem nodup_names (memory : Memory) : memory.names.Nodup := by
  refine List.pairwise_map.mpr (memory.sorted.imp ?_)
  intro left right before same
  exact String.lt_irrefl right.1 (same ▸ before)

/-- The entries are what looking names up gives, since no name has two of them. -/
theorem mem_entries_iff {memory : Memory} {name : String} {answer : Option Nat}
    : (name, answer) ∈ memory.entries ↔ memory.entry? name = some answer :=
  (lookup_eq_some_iff_mem memory.nodup_names).symm

/-- There are as many entries as names that the operations are about. -/
theorem size_ofOperations (operations : List Operation)
    : (ofOperations operations).size = (operations.map Operation.name).toFinset.card := by
  have same
      : (ofOperations operations).names.toFinset = (operations.map Operation.name).toFinset := by
    ext name
    rw [List.mem_toFinset, List.mem_toFinset, mem_names_ofOperations_iff]
  rw [← same, List.toFinset_card_of_nodup (nodup_names _), names, List.length_map, size]

-----------------------------------------------------------------------------------------
-- Guards
-----------------------------------------------------------------------------------------

/-- A guard holds if its option has an entry whose number is the threshold: 0 without an answer, and
the number of the choice with one.
-/
theorem satisfies_iff_exists {memory : Memory} {guard : Guard}
    : memory.satisfies guard = true
      ↔ ∃ answer,
          memory.entry? guard.option = some answer ∧ answer.elim 0 (· + 1) = guard.threshold := by
  unfold satisfies
  rcases memory.entry? guard.option with _ | _ | index
  · simp
  · simp [eq_comm]
  · simp

/-- The guards of a name that hold ask for the same: at most one threshold matches. -/
theorem threshold_unique {memory : Memory} {name : String} {threshold other : Nat}
    (holds : memory.satisfies ⟨name, threshold⟩ = true)
    (otherHolds : memory.satisfies ⟨name, other⟩ = true)
    : threshold = other := by
  obtain ⟨answer, found, number⟩ := satisfies_iff_exists.mp holds
  obtain ⟨otherAnswer, otherFound, otherNumber⟩ := satisfies_iff_exists.mp otherHolds
  obtain rfl : answer = otherAnswer := Option.some.inj (found.symm.trans otherFound)
  exact number.symm.trans otherNumber

/-- A guard asks for the choice after the last recorded index, or for no answer. By cases on whether
its option occurs and is answered.
-/
theorem satisfies_ofOperations_iff {operations : List Operation} {guard : Guard}
    : (ofOperations operations).satisfies guard = true
      ↔ (∃ index,
          lastAnswer? operations guard.option = some index ∧ index + 1 = guard.threshold)
        ∨ (guard.option ∈ operations.map Operation.name
          ∧ lastAnswer? operations guard.option = none
          ∧ guard.threshold = 0) := by
  rw [satisfies_iff_exists, entry?_ofOperations]
  by_cases known : guard.option ∈ operations.map Operation.name
  · rw [if_pos known]
    cases lastAnswer? operations guard.option <;> simp [known, eq_comm]
  · rw [if_neg known, lastAnswer?_of_not_mem known]
    simp [known]

/-- What operations make of an empty memory is told by the operations alone. The answer to an option
is the last one that was recorded, however often the option was declared before or after it. The
entries are the options that occur, each once, in the order of their code points and with these
answers. A guard holds if the last index is one less than its threshold, or if its option occurs
without an answer and its threshold is 0; so of each option at most one guard holds, and none of an
option that does not occur.
-/
theorem ofOperations_faithful (operations : List Operation)
    : (∀ name, (ofOperations operations).get? name = lastAnswer? operations name)
      ∧ (∀ name,
          (ofOperations operations).isDeclared name = true
          ↔ ∃ operation ∈ operations, operation.name = name)
      ∧ (∀ name answer,
          (name, answer) ∈ (ofOperations operations).entries
          ↔ (∃ operation ∈ operations, operation.name = name)
            ∧ answer = lastAnswer? operations name)
      ∧ (ofOperations operations).entries.Pairwise
          (fun left right => codePoints left.1 < codePoints right.1)
      ∧ (ofOperations operations).size = (operations.map Operation.name).toFinset.card
      ∧ (∀ guard,
          (ofOperations operations).satisfies guard = true
          ↔ (∃ index,
              lastAnswer? operations guard.option = some index ∧ index + 1 = guard.threshold)
            ∨ ((∃ operation ∈ operations, operation.name = guard.option)
              ∧ lastAnswer? operations guard.option = none
              ∧ guard.threshold = 0))
      ∧ (∀ name threshold other,
          (ofOperations operations).satisfies ⟨name, threshold⟩ = true
          → (ofOperations operations).satisfies ⟨name, other⟩ = true
          → threshold = other)
      ∧ ∀ guard,
          (¬∃ operation ∈ operations, operation.name = guard.option)
          → (ofOperations operations).satisfies guard = false := by
  have occurs {name : String}
      : name ∈ operations.map Operation.name ↔ ∃ operation ∈ operations, operation.name = name :=
    List.mem_map
  refine ⟨get?_ofOperations operations, fun name => ?_, fun name answer => ?_, ?_,
    size_ofOperations operations, fun guard => ?_, fun _ _ _ => threshold_unique, ?_⟩
  · rw [← mem_names_iff, mem_names_ofOperations_iff, occurs]
  · rw [mem_entries_iff, entry?_ofOperations, ← occurs]
    by_cases known : name ∈ operations.map Operation.name
    · rw [if_pos known, Option.some_inj, eq_comm, and_iff_right known]
    · rw [if_neg known, iff_false_right fun both => known both.1]
      exact nofun
  · exact (ofOperations operations).sorted.imp codePoints_lt_codePoints
  · rw [satisfies_ofOperations_iff, occurs]
  · intro guard absent
    rw [← occurs] at absent
    rw [Bool.eq_false_iff, Ne, satisfies_ofOperations_iff, lastAnswer?_of_not_mem absent]
    simp [absent]

/-- An option is answered twice and declared afterwards. -/
def renewed : List Operation :=
  [.record "b" 1, .declare "a", .record "b" 4, .declare "b"]

/-- Declaring an option again takes no answer away, and a later answer replaces an earlier one. So
one guard of the option holds, and none of an option that does not occur.
-/
theorem renewed_faithful
    : (ofOperations renewed).entries = [("a", none), ("b", some 4)]
      ∧ (ofOperations renewed).get? "b" = some 4
      ∧ (ofOperations renewed).satisfies ⟨"b", 5⟩ = true
      ∧ (∀ other, (ofOperations renewed).satisfies ⟨"b", other⟩ = true → 5 = other)
      ∧ (¬∃ operation ∈ renewed, operation.name = "c")
      ∧ ∀ threshold, (ofOperations renewed).satisfies ⟨"c", threshold⟩ = false := by
  obtain ⟨answers, -, -, -, -, -, one, never⟩ := ofOperations_faithful renewed
  have holds : (ofOperations renewed).satisfies ⟨"b", 5⟩ = true := by decide +kernel
  have absent : ¬∃ operation ∈ renewed, operation.name = "c" := by decide
  have answered : (ofOperations renewed).get? "b" = some 4 :=
    (answers "b").trans (by decide +kernel)
  refine ⟨by decide +kernel, answered, holds, fun other again => ?_, absent, fun threshold => ?_⟩
  · exact one "b" 5 other holds again
  · exact never ⟨"c", threshold⟩ absent

end Dialogue.Memory
