import Dialogue.Proofs.Play.Calls
import Dialogue.Proofs.Play.Declared
import Dialogue.Proofs.Play.Lookup

/-! What an engine remembers: always the same options, and for each of them none or the last of its
answers, which was one of the choices of some prompt.
-/

namespace Dialogue

-----------------------------------------------------------------------------------------
-- Names
-----------------------------------------------------------------------------------------

namespace Memory

/-- The declared options, in order. -/
def names (memory : Memory) : List String :=
  memory.entries.map Prod.fst

theorem mem_names_iff {memory : Memory} {name : String}
    : name ∈ memory.names ↔ memory.isDeclared name = true := by
  rw [isDeclared_iff, names, List.mem_map]

/-- Setting the answer of a name that is there keeps all names, by induction on the list. -/
theorem map_fst_putEntry {name : String} {answer : Option Nat}
    {entries : List (String × Option Nat)}
    (sorted : entries.Pairwise (fun left right => left.1 < right.1))
    (known : name ∈ entries.map Prod.fst)
    : (putEntry name answer entries).map Prod.fst = entries.map Prod.fst := by
  induction entries with
  | nil => cases known
  | cons first rest ih =>
      obtain ⟨above, sortedRest⟩ := List.pairwise_cons.mp sorted
      rw [List.map_cons, List.mem_cons] at known
      unfold putEntry
      split
      · next before =>
          have different : name ≠ first.1 := fun same => String.lt_irrefl name (same ▸ before)
          rw [List.map_cons, List.map_cons, ih sortedRest (known.resolve_left different)]
      · next notBefore =>
          -- the names of the rest come after the first one, and so after this name
          have same : first.1 = name := by
            refine (known.resolve_right fun later => notBefore ?_).symm
            obtain ⟨entry, member, rfl⟩ := List.mem_map.mp later
            exact above entry member
          rw [if_pos same, List.map_cons, List.map_cons, same]

theorem names_record {memory : Memory} {name : String} (known : name ∈ memory.names) (index : Nat)
    : (memory.record name index).names = memory.names :=
  map_fst_putEntry memory.sorted known

end Memory

namespace Engine

/-- At the start an engine remembers the options that the dialogue can reach. -/
theorem mem_names_start_iff {graph : Graph} {name : String}
    : name ∈ (start graph).memory.names ↔ ∃ id ∈ graph.reachable, graph.Presents name id := by
  have none : ∀ entry ∈ Memory.empty.entries, entry.2 = .none := fun _ member => nomatch member
  rw [← Graph.mem_optionNames_iff, Memory.names, List.mem_map]
  constructor
  · rintro ⟨entry, member, rfl⟩
    exact ((Memory.mem_entries_foldl_declare none).mp member).elim (nomatch ·) And.left
  · intro known
    exact ⟨(name, .none), (Memory.mem_entries_foldl_declare none).mpr (Or.inr ⟨known, rfl⟩), rfl⟩

/-- A call keeps the names: an answer is recorded for the option of a reachable slot, which is
remembered already. By the cases of answering.
-/
theorem OnTrack.names_call {graph : Graph} {engine : Engine} (track : OnTrack graph engine)
    (names : engine.memory.names = (Engine.start graph).memory.names) (call : Call)
    : (engine.call call).memory.names = (Engine.start graph).memory.names := by
  cases call with
  | advance =>
      rw [Engine.call, memory_advance]
      exact names
  | select index =>
      rw [Engine.call]
      rcases engine.select_cases index with
        ⟨-, same⟩ | ⟨prompt, opened, ⟨-, same⟩ | ⟨-, accepted⟩⟩
      · rwa [same]
      · rwa [same]
      · obtain ⟨choices, found, -⟩ := track.prompt prompt opened
        have known : prompt.option ∈ engine.memory.names := by
          rw [names]
          exact mem_names_start_iff.mpr ⟨_, track.position, choices, found⟩
        rw [accepted]
        exact (Memory.names_record known index).trans names

/-- Wherever an engine gets, it remembers the options that it remembered at the start. By induction
on the calls.
-/
theorem Visits.names {graph : Graph} {engine : Engine} (inRange : graph.InRange)
    (visits : Visits graph engine)
    : engine.memory.names = (Engine.start graph).memory.names := by
  induction visits with
  | start => rfl
  | advance before ih => exact (before.onTrack_of_inRange inRange).names_call ih .advance
  | select index before ih =>
      exact (before.onTrack_of_inRange inRange).names_call ih (.select index)

-----------------------------------------------------------------------------------------
-- Answers
-----------------------------------------------------------------------------------------

/-- No call takes an answer away, by the cases of answering. -/
theorem isSome_get?_call {engine : Engine} {name : String}
    (answered : (engine.memory.get? name).isSome = true) (call : Call)
    : ((engine.call call).memory.get? name).isSome = true := by
  cases call with
  | advance => rwa [Engine.call, memory_advance]
  | select index =>
      rw [Engine.call]
      rcases engine.select_cases index with
        ⟨-, same⟩ | ⟨prompt, -, ⟨-, same⟩ | ⟨-, accepted⟩⟩
      · rwa [same]
      · rwa [same]
      · rw [accepted, Memory.get?_record]
        split
        · rfl
        · exact answered

/-- However an engine is driven on, no answer is taken away. By induction on the calls. -/
theorem isSome_get?_calls {engine : Engine} {name : String}
    (answered : (engine.memory.get? name).isSome = true) (calls : List Call)
    : ((engine.calls calls).memory.get? name).isSome = true := by
  induction calls generalizing engine with
  | nil => exact answered
  | cons first rest ih => exact ih (isSome_get?_call answered first)

/-- Some state that an engine gets into on the graph asks for the option, with this many choices. -/
def Asks (graph : Graph) (name : String) (count : Nat) : Prop :=
  ∃ engine, Visits graph engine ∧ engine.prompt = some ⟨name, count⟩

/-- What an engine asks for is the option of a slot that the dialogue can reach. -/
theorem Asks.exists_option {graph : Graph} (inRange : graph.InRange) {name : String} {count : Nat}
    (asks : Asks graph name count)
    : ∃ id ∈ graph.reachable,
        ∃ choices, graph.node id = .beat (.option name choices) ∧ count = choices.length := by
  obtain ⟨engine, visits, opened⟩ := asks
  have track := visits.onTrack_of_inRange inRange
  exact ⟨engine.position, track.position, track.prompt _ opened⟩

/-- Every answer that is remembered was one of the choices of a prompt, by induction on the calls.
-/
theorem Visits.asked {graph : Graph} {engine : Engine} (visits : Visits graph engine)
    {name : String} {index : Nat} (answered : engine.memory.get? name = some index)
    : ∃ count, Asks graph name count ∧ index < count := by
  induction visits with
  | start =>
      rw [get?_memory_start] at answered
      nomatch answered
  | advance _ ih =>
      rw [memory_advance] at answered
      exact ih answered
  | @select engine given before ih =>
      rcases engine.select_cases given with
        ⟨-, same⟩ | ⟨prompt, opened, ⟨-, same⟩ | ⟨inRange, accepted⟩⟩
      · rw [same] at answered
        exact ih answered
      · rw [same] at answered
        exact ih answered
      · rw [accepted, Memory.get?_record] at answered
        split at answered
        · next named =>
            obtain rfl := Option.some.inj answered
            exact ⟨prompt.count, ⟨engine, before, named ▸ opened⟩, inRange⟩
        · exact ih answered

/-- Choosing any of the choices of a prompt leads to a state that remembers it. -/
theorem Asks.exists_answer {graph : Graph} {name : String} {count index : Nat}
    (asks : Asks graph name count) (inRange : index < count)
    : ∃ engine, Visits graph engine ∧ engine.memory.get? name = some index := by
  obtain ⟨engine, visits, opened⟩ := asks
  refine ⟨_, visits.select index, ?_⟩
  rw [select_of_lt opened inRange]
  simp [Memory.get?_record]

/-- A guard that asks for an answer comes to hold if and only if its option is asked for with at
least so many choices.
-/
theorem exists_satisfies_iff (graph : Graph) {guard : Guard} (asks : 0 < guard.threshold)
    : (∃ engine, Visits graph engine ∧ engine.memory.satisfies guard = true)
      ↔ ∃ count, Asks graph guard.option count ∧ guard.threshold ≤ count := by
  constructor
  · rintro ⟨engine, visits, holds⟩
    obtain ⟨count, asked, inRange⟩ := visits.asked ((Memory.satisfies_iff asks).mp holds)
    exact ⟨count, asked, by omega⟩
  · rintro ⟨count, asked, enough⟩
    have inRange : guard.threshold - 1 < count := by omega
    obtain ⟨engine, visits, answered⟩ := asked.exists_answer inRange
    exact ⟨engine, visits, (Memory.satisfies_iff asks).mpr answered⟩

end Engine

end Dialogue
