import Dialogue.Proofs.Play.Resolution
import Dialogue.Proofs.Play.Runs

/-! Calls on an engine, in any order. Wherever they lead on a graph whose edges stay inside it, the
engine is at a slot that the dialogue can reach, and an open prompt is the one of the option there.
-/

namespace Dialogue

/-- A call on an engine. -/
inductive Call where
  | advance
  | select (index : Nat)
  deriving Repr, DecidableEq

namespace Engine

/-- The engine after a call, whether or not the call was refused. -/
def call (engine : Engine) : Call → Engine
  | .advance => engine.advance.2
  | .select index => (engine.select index).2

def calls (engine : Engine) (made : List Call) : Engine :=
  made.foldl call engine

theorem calls_append (engine : Engine) (first more : List Call)
    : engine.calls (first ++ more) = (engine.calls first).calls more :=
  List.foldl_append

theorem Visits.call {graph : Graph} {engine : Engine} (visits : Visits graph engine) (call : Call)
    : Visits graph (engine.call call) := by
  cases call with
  | advance => exact visits.advance
  | select index => exact visits.select index

theorem Visits.calls {graph : Graph} {engine : Engine} (visits : Visits graph engine)
    (calls : List Call)
    : Visits graph (engine.calls calls) := by
  induction calls generalizing engine with
  | nil => exact visits
  | cons first rest ih => exact ih (visits.call first)

/-- The states that an engine can get into are those after some calls. -/
theorem visits_iff_exists_calls {graph : Graph} {engine : Engine}
    : Visits graph engine ↔ ∃ calls, (start graph).calls calls = engine := by
  constructor
  · intro visits
    induction visits with
    | start => exact ⟨[], rfl⟩
    | advance _ ih =>
        obtain ⟨calls, rfl⟩ := ih
        exact ⟨calls ++ [.advance], calls_append _ _ _⟩
    | select index _ ih =>
        obtain ⟨calls, rfl⟩ := ih
        exact ⟨calls ++ [.select index], calls_append _ _ _⟩
  · rintro ⟨calls, rfl⟩
    exact Visits.start.calls calls

-----------------------------------------------------------------------------------------
-- Positions and prompts
-----------------------------------------------------------------------------------------

/-- What holds of every state that an engine gets into on a graph: it is at a reachable slot, and an
open prompt is the one of the option there.
-/
structure OnTrack (graph : Graph) (engine : Engine) : Prop where
  same : engine.graph = graph
  position : engine.position ∈ graph.reachable
  prompt
    : ∀ prompt,
        engine.prompt = some prompt
        → ∃ choices,
            graph.node engine.position = .beat (.option prompt.option choices)
            ∧ prompt.count = choices.length

/-- What a step opens is the prompt of the option that it presents, by cases on the node. -/
theorem node_of_prompt? {node : Node} {step : Step} {prompt : Prompt}
    (presents : node.step? = some step) (opens : step.prompt? = some prompt)
    : ∃ choices, node = .beat (.option prompt.option choices) ∧ prompt.count = choices.length := by
  rcases Node.step?_eq_some presents with ⟨shown, rfl, rfl⟩ | ⟨-, rfl⟩
  · cases shown with
    | option name choices =>
        obtain rfl := Option.some.inj opens
        exact ⟨choices, rfl, rfl⟩
    | scene _ | say _ _ | think _ _ => nomatch opens
  · nomatch opens

theorem onTrack_start_of_inRange {graph : Graph} (inRange : graph.InRange)
    : OnTrack graph (start graph) where
  same := rfl
  position := root_mem_preorder inRange.1
  prompt := fun _ opened => nomatch opened

/-- What comes next is reachable, since choices lead there from a successor. -/
theorem mem_reachable_of_target? {engine : Engine} (inRange : engine.graph.InRange)
    (reached : engine.position ∈ engine.graph.reachable) {target : Nat}
    (next : engine.target? = some target)
    : target ∈ engine.graph.reachable := by
  obtain ⟨first, head, resolved⟩ := Option.bind_eq_some_iff.mp next
  have firstReached := inRange.mem_reachable_of_successor reached (List.mem_of_mem_head? head)
  exact inRange.mem_reachable_of_follows (Graph.follows_of_resolve resolved) firstReached

/-- Going on keeps an engine on track, by the cases of going on. -/
theorem OnTrack.advance_of_inRange {graph : Graph} {engine : Engine} (inRange : graph.InRange)
    (track : OnTrack graph engine)
    : OnTrack graph engine.advance.2 := by
  obtain rfl := track.same
  rcases engine.advance_cases with
    ⟨prompt, -, same⟩
      | ⟨-, ⟨-, same⟩ | ⟨target, next, ⟨-, same⟩ | ⟨step, presents, goes⟩⟩⟩
  · rwa [same]
  · rwa [same]
  · rwa [same]
  · rw [goes]
    have reached := mem_reachable_of_target? inRange track.position next
    exact ⟨rfl, reached, fun prompt opens => node_of_prompt? presents opens⟩

/-- An answer keeps an engine on track: it closes the prompt or changes nothing. -/
theorem OnTrack.select {graph : Graph} {engine : Engine} (track : OnTrack graph engine)
    (index : Nat)
    : OnTrack graph (engine.select index).2 := by
  rcases engine.select_cases index with
    ⟨-, same⟩ | ⟨prompt, -, ⟨-, same⟩ | ⟨-, accepted⟩⟩
  · rwa [same]
  · rwa [same]
  · rw [accepted]
    exact ⟨track.same, track.position, fun _ opened => nomatch opened⟩

/-- Every state that an engine gets into on a graph whose edges stay inside it is on track, by
induction on the calls.
-/
theorem Visits.onTrack_of_inRange {graph : Graph} {engine : Engine} (inRange : graph.InRange)
    (visits : Visits graph engine)
    : OnTrack graph engine := by
  induction visits with
  | start => exact onTrack_start_of_inRange inRange
  | advance _ ih => exact ih.advance_of_inRange inRange
  | select index _ ih => exact ih.select index

end Engine

end Dialogue
