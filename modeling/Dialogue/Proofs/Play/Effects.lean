import Dialogue.Proofs.Play.Calls
import Dialogue.Proofs.Play.Lookup

/-! What calls change. A call that is refused, or that finds nothing to present or to answer, has no
effect, so the same call gets the same result again; any other call changes only what it is for.
-/

namespace Dialogue

open Relation

namespace Graph

theorem InRange.lt_size_of_follows {graph : Graph} (inRange : graph.InRange) {memory : Memory}
    {first last : Nat} (path : ReflTransGen (graph.Follows memory) first last)
    (inside : first < graph.size)
    : last < graph.size := by
  induction path with
  | refl => exact inside
  | tail _ step _ => exact inRange.lt_size_of_mem_next step.mem_next

end Graph

namespace Engine

-----------------------------------------------------------------------------------------
-- Engines at rest
-----------------------------------------------------------------------------------------

/-- No call has an effect on the engine. -/
def Rests (engine : Engine) : Prop :=
  ∀ call, engine.call call = engine

/-- Nor have any calls one after the other, by induction on them. -/
theorem Rests.calls {engine : Engine} (rests : engine.Rests) (made : List Call)
    : engine.calls made = engine := by
  induction made with
  | nil => rfl
  | cons first rest ih =>
      have made : engine.calls (first :: rest) = (engine.call first).calls rest := rfl
      simpa only [made, rests first] using ih

theorem select_of_closed {engine : Engine} (closed : engine.prompt = none) (index : Nat)
    : engine.select index = (.ok (), engine) := by
  simp only [select, closed]

/-- Going on has no effect unless it presents a step, by the cases of going on. -/
theorem advance_eq_self {engine onward : Engine} {outcome : Except EngineError (Option Step)}
    (goes : engine.advance = (outcome, onward)) (silent : ∀ step, outcome ≠ .ok (some step))
    : onward = engine := by
  rcases engine.advance_cases with
    ⟨_, _, same⟩ | ⟨_, ⟨_, same⟩ | ⟨_, _, ⟨_, same⟩ | ⟨step, _, presents⟩⟩⟩
  · exact (Prod.mk.inj (goes.symm.trans same)).2
  · exact (Prod.mk.inj (goes.symm.trans same)).2
  · exact (Prod.mk.inj (goes.symm.trans same)).2
  · exact absurd (Prod.mk.inj (goes.symm.trans presents)).1 (silent step)

/-- Where no prompt is open and going on presents no step, the engine is at rest. -/
theorem rests_of_advance {engine onward : Engine} {outcome : Except EngineError (Option Step)}
    (closed : engine.prompt = none) (goes : engine.advance = (outcome, onward))
    (silent : ∀ step, outcome ≠ .ok (some step))
    : engine.Rests := by
  intro call
  cases call with
  | advance =>
      have same := advance_eq_self goes silent
      simp only [Engine.call, goes, same]
  | select index => simp only [Engine.call, select_of_closed closed]

/-- An open prompt refuses going on. -/
theorem advance_of_open {engine : Engine} {prompt : Prompt} (opened : engine.prompt = some prompt)
    : engine.advance = (.error (.awaitingSelection prompt.option), engine) := by
  simp only [advance, opened]

/-- Without an open prompt, going on is refused only for a node that cannot be presented, by the
cases of going on.
-/
theorem unsurfaceable_of_closed {engine onward : Engine} {error : EngineError}
    (closed : engine.prompt = none) (goes : engine.advance = (.error error, onward))
    : ∃ line, error = .unsurfaceable line := by
  rcases engine.advance_cases with
    ⟨_, isOpen, _⟩ | ⟨_, ⟨_, ends⟩ | ⟨target, _, ⟨_, fails⟩ | ⟨_, _, presents⟩⟩⟩
  · nomatch closed.symm.trans isOpen
  · nomatch goes.symm.trans ends
  · exact ⟨engine.graph.line target, Except.error.inj (Prod.mk.inj (goes.symm.trans fails)).1⟩
  · nomatch goes.symm.trans presents

-----------------------------------------------------------------------------------------
-- Main statement
-----------------------------------------------------------------------------------------

/-- All that calls may change of an engine. -/
structure Effects (engine : Engine) : Prop where
  /-- Following choices comes to an end from where the engine goes on. -/
  settles
    : ∀ first ∈ engine.graph.next engine.position,
        ∃ last < engine.graph.size,
          engine.graph.EndsAt engine.memory first last
            (engine.graph.resolve engine.memory first)
  /-- Going on is refused without effect: for an open prompt, or else for good. -/
  refused
    : ∀ error onward,
        engine.advance = (.error error, onward)
        → onward = engine
          ∧ ((∃ prompt,
                engine.prompt = some prompt ∧ error = .awaitingSelection prompt.option)
              ∨ ∃ line,
                  error = .unsurfaceable line
                  ∧ ∀ made, (engine.calls made).advance = (.error error, engine))
  /-- At the end of the dialogue every call is accepted without effect, now and later. -/
  finished
    : ∀ onward,
        engine.advance = (.ok none, onward)
        → onward = engine
          ∧ ∀ made,
              (engine.calls made).advance = (.ok none, engine)
              ∧ ∀ index, (engine.calls made).select index = (.ok (), engine)
  /-- A step changes the position and the prompt alone. -/
  presented
    : ∀ step onward,
        engine.advance = (.ok (some step), onward)
        → onward = { engine with position := onward.position, prompt := onward.prompt }
  /-- An answer is refused without effect, if it is none of the choices of the open prompt. -/
  rejected
    : ∀ index error onward,
        engine.select index = (.error error, onward)
        → onward = engine
          ∧ ∃ prompt,
              engine.prompt = some prompt
              ∧ prompt.count ≤ index
              ∧ error = .choiceOutOfRange prompt.option index prompt.count
  /-- Without an open prompt an answer is accepted without effect. -/
  ignored : engine.prompt = none → ∀ index, engine.select index = (.ok (), engine)
  /-- An answer closes the prompt and changes the entry of its option alone. -/
  answered
    : ∀ prompt index onward,
        engine.prompt = some prompt
        → engine.select index = (.ok (), onward)
        → onward = { engine with memory := onward.memory, prompt := none }
          ∧ ∀ name,
              onward.memory.entry? name
                = if name = prompt.option then some (some index) else engine.memory.entry? name

/-- On every graph whose edges stay inside it and that has no cycle of choices alone, and in every
state of the engine, calls change no more than what they are for. Calls that are refused change
nothing, and where going on fails for a node that cannot be presented, or finds the dialogue at its
end, it does so forever, whatever calls are made.
-/
theorem effects_of_inRange {engine : Engine} (inRange : engine.graph.InRange)
    (noCycle : engine.graph.NoChoiceCycle)
    : Effects engine where
  settles := by
    intro first successor
    obtain ⟨last, ends⟩ := noCycle.exists_endsAt engine.memory first
    have inside := inRange.lt_size_of_mem_next successor
    exact ⟨last, inRange.lt_size_of_follows ends.1 inside, ends⟩
  refused := by
    intro error onward goes
    have same := advance_eq_self goes nofun
    subst same
    refine ⟨rfl, ?_⟩
    cases opened : onward.prompt with
    | some prompt =>
        have refuses := goes.symm.trans (advance_of_open opened)
        exact Or.inl ⟨prompt, rfl, Except.error.inj (Prod.mk.inj refuses).1⟩
    | none =>
        have rests := rests_of_advance opened goes nofun
        obtain ⟨line, named⟩ := unsurfaceable_of_closed opened goes
        refine Or.inr ⟨line, named, ?_⟩
        intro made
        simpa only [rests.calls made] using goes
  finished := by
    intro onward goes
    have same := advance_eq_self goes nofun
    subst same
    refine ⟨rfl, ?_⟩
    intro made
    cases opened : onward.prompt with
    | some prompt => nomatch goes.symm.trans (advance_of_open opened)
    | none =>
        have rests := rests_of_advance opened goes nofun
        simp only [rests.calls made]
        exact ⟨goes, select_of_closed opened⟩
  presented := by
    intro step onward goes
    rcases engine.advance_cases with
      ⟨_, _, other⟩ | ⟨_, ⟨_, other⟩ | ⟨_, _, ⟨_, other⟩ | ⟨_, _, presents⟩⟩⟩
    · nomatch goes.symm.trans other
    · nomatch goes.symm.trans other
    · nomatch goes.symm.trans other
    · have same := (Prod.mk.inj (goes.symm.trans presents)).2
      subst same
      rfl
  rejected := by
    intro index error onward refuses
    rcases engine.select_cases index with
      ⟨_, ignores⟩ | ⟨prompt, opened, ⟨outOfRange, rejects⟩ | ⟨_, accepts⟩⟩
    · nomatch refuses.symm.trans ignores
    · obtain ⟨failed, same⟩ := Prod.mk.inj (refuses.symm.trans rejects)
      exact ⟨same, prompt, opened, outOfRange, Except.error.inj failed⟩
    · nomatch refuses.symm.trans accepts
  ignored := select_of_closed
  answered := by
    intro prompt index onward opened accepted
    rcases engine.select_cases index with
      ⟨closed, _⟩ | ⟨other, isOpen, ⟨_, rejects⟩ | ⟨_, accepts⟩⟩
    · nomatch opened.symm.trans closed
    · nomatch accepted.symm.trans rejects
    · have named := Option.some.inj (opened.symm.trans isOpen)
      have same := (Prod.mk.inj (accepted.symm.trans accepts)).2
      subst named same
      exact ⟨rfl, engine.memory.entry?_record prompt.option index⟩

end Engine

/-- A graph with two ways behind an option, one to a choice that leads nowhere and one over a choice
to a start that is not the root.
-/
def Graph.impasses : Graph where
  slots :=
    [⟨.start, 0, [1]⟩, ⟨.beat (.option "pick" ["A", "B"]), 1, [2]⟩,
      ⟨.choice [⟨"pick", 1⟩, ⟨"pick", 2⟩], 5, [3, 4]⟩, ⟨.choice [⟨"pick", 0⟩], 6, []⟩,
      ⟨.choice [], 7, [5]⟩, ⟨.start, 9, []⟩]
  root := 0

theorem Graph.noChoiceCycle_impasses : impasses.NoChoiceCycle := by
  have forward : ∀ source < 6, ∀ target ∈ impasses.next source, source < target ∧ target < 6 := by
    decide
  apply Forward.noChoiceCycle
  intro source target successor
  exact forward source (lt_size_of_mem_next successor) target successor

/-- On the one way the dialogue ends, on the other way it cannot go on, and so it stays after any
calls.
-/
theorem Engine.impasses_effects
    : Graph.impasses.InRange
      ∧ Graph.impasses.NoChoiceCycle
      ∧ (∀ made,
          (((start Graph.impasses).calls [.advance, .select 0]).calls made).advance
            = (.ok none, (start Graph.impasses).calls [.advance, .select 0]))
      ∧ ∀ made,
          (((start Graph.impasses).calls [.advance, .select 1]).calls made).advance
            = (.error (.unsurfaceable 9), (start Graph.impasses).calls [.advance, .select 1]) := by
  have inRange : Graph.impasses.InRange := by decide
  have noCycle := Graph.noChoiceCycle_impasses
  have same (made : List Call) : ((start Graph.impasses).calls made).graph = Graph.impasses :=
    ((Visits.start.calls made).onTrack_of_inRange inRange).same
  have first : Effects ((start Graph.impasses).calls [.advance, .select 0]) :=
    effects_of_inRange (by simpa only [same] using inRange) (by simpa only [same] using noCycle)
  have second : Effects ((start Graph.impasses).calls [.advance, .select 1]) :=
    effects_of_inRange (by simpa only [same] using inRange) (by simpa only [same] using noCycle)
  have ends
      : ((start Graph.impasses).calls [.advance, .select 0]).advance
        = (.ok none, (start Graph.impasses).calls [.advance, .select 0]) := by
    decide +kernel
  have fails
      : ((start Graph.impasses).calls [.advance, .select 1]).advance
        = (.error (.unsurfaceable 9), (start Graph.impasses).calls [.advance, .select 1]) := by
    decide +kernel
  refine ⟨inRange, noCycle, fun made => ((first.finished _ ends).2 made).1, ?_⟩
  rcases (second.refused _ _ fails).2 with ⟨_, _, waits⟩ | ⟨_, _, forever⟩
  · nomatch waits
  · exact forever

end Dialogue
