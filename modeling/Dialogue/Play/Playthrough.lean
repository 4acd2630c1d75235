import Dialogue.Play.Engine

/-! Whole playthroughs, in which a list of answers is used up prompt by prompt. -/

namespace Dialogue

/-- How a playthrough stops. -/
inductive Ending where
  | complete
  | failed (error : EngineError)
  | endless
  deriving Repr, DecidableEq

/-- The steps of a playthrough, how it stops, what it remembers then, and what it reported. -/
structure Playthrough where
  steps : List Step
  ending : Ending
  memory : Memory
  events : List Event
  deriving Repr, DecidableEq

def Playthrough.after (step : Step) (events : List Event) (rest : Playthrough) : Playthrough :=
  { rest with steps := step :: rest.steps, events := events ++ rest.events }

/-- Plays on for at most `limit` steps. Prompts beyond the answers get the first choice. -/
def Engine.playFor : (limit : Nat) → Engine → (answers : List Nat) → Playthrough
  | 0, engine, _ => ⟨[], .endless, engine.memory, []⟩
  | limit + 1, engine, answers =>
      let events := engine.advanceEvents
      match engine.advance with
      | (.error error, engine) => ⟨[], .failed error, engine.memory, events⟩
      | (.ok none, engine) => ⟨[], .complete, engine.memory, events⟩
      | (.ok (some step), engine) =>
          if step.isOption then
            let answer := answers.headD 0
            let events := events ++ engine.selectEvents answer
            match engine.select answer with
            | (.error error, engine) => ⟨[step], .failed error, engine.memory, events⟩
            | (.ok (), engine) => (engine.playFor limit answers.tail).after step events
          else (engine.playFor limit answers).after step events

/-- A number of steps that only a playthrough without end exceeds. Between two answers no node
comes up twice, and after the given answers every option changes its answer at most once more.
-/
def Graph.stepLimit (graph : Graph) (answers : List Nat) : Nat :=
  (answers.length + graph.size + 1) * (graph.size + 1) + 1

/-- Plays a dialogue from its start. -/
def Graph.play (graph : Graph) (answers : List Nat) : Playthrough :=
  let engine := Engine.start graph
  let played := engine.playFor (graph.stepLimit answers) answers
  { played with events := engine.startEvents ++ played.events }

end Dialogue
