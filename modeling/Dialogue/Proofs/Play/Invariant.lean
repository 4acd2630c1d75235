import Dialogue.Proofs.Play.Answers

/-! The invariant of an engine on any graph whose edges stay inside it, cycles included: where it
is, what it remembers and what it asks for are always backed by slots that the dialogue can reach.
-/

namespace Dialogue

open Relation

namespace Engine

/-- What the state of an engine is backed by in its graph. The engine is at a slot that a path from
the root leads to, and remembers the options of such slots; an open prompt is the one of the option
where it is, and an answer is one of the choices that some such slot offers for the option.
-/
structure Backed (graph : Graph) (engine : Engine) : Prop where
  same : engine.graph = graph
  position : Reaches graph.next graph.root engine.position
  names
    : ∀ name,
        name ∈ engine.memory.names
        ↔ ∃ id, Reaches graph.next graph.root id ∧ graph.Presents name id
  prompt
    : ∀ prompt,
        engine.prompt = some prompt
        → ∃ choices,
            graph.node engine.position = .beat (.option prompt.option choices)
            ∧ prompt.count = choices.length
  answers
    : ∀ name index,
        engine.memory.get? name = some index
        → ∃ id choices,
            Reaches graph.next graph.root id
            ∧ graph.node id = .beat (.option name choices)
            ∧ index + 1 ≤ choices.length

/-- Wherever an engine gets on a graph whose edges stay inside it, its state is backed. -/
theorem Visits.backed {graph : Graph} {engine : Engine} (inRange : graph.InRange)
    (visits : Visits graph engine)
    : Backed graph engine := by
  have track := visits.onTrack_of_inRange inRange
  refine ⟨track.same, inRange.mem_reachable_iff.mp track.position, fun name => ?_, track.prompt, ?_⟩
  · rw [visits.names inRange, mem_names_start_iff]
    simp only [inRange.mem_reachable_iff]
  · intro name index answered
    obtain ⟨count, asks, inside⟩ := visits.asked answered
    obtain ⟨id, reached, choices, found, rfl⟩ := asks.exists_option inRange
    exact ⟨id, choices, inRange.mem_reachable_iff.mp reached, found, inside⟩

-----------------------------------------------------------------------------------------
-- Main statement
-----------------------------------------------------------------------------------------

/-- On every graph whose edges stay inside it and that has no cycle of choices alone, the state of
an engine is backed after any calls. The engine remembers the names that it remembered at the start,
it forgets no answer later, and wherever it goes on from, following choices comes to an end.
-/
theorem backed_calls {graph : Graph} (inRange : graph.InRange) (noCycle : graph.NoChoiceCycle)
    (made : List Call)
    : Backed graph ((start graph).calls made)
      ∧ ((start graph).calls made).memory.names = (start graph).memory.names
      ∧ (∀ name more,
          (((start graph).calls made).memory.get? name).isSome = true
          → (((start graph).calls (made ++ more)).memory.get? name).isSome = true)
      ∧ ∀ first ∈ graph.next ((start graph).calls made).position,
          ∃ last,
            graph.EndsAt ((start graph).calls made).memory first last
              (graph.resolve ((start graph).calls made).memory first) := by
  have visits : Visits graph ((start graph).calls made) := Visits.start.calls made
  refine ⟨visits.backed inRange, visits.names inRange, fun name more answered => ?_,
    fun first _ => noCycle.exists_endsAt _ first⟩
  rw [calls_append]
  exact isSome_get?_calls answered more

end Engine

/-- A graph that asks for the same option over and over, with three choices or with one. -/
def Graph.carousel : Graph where
  slots :=
    [⟨.start, 0, [1]⟩, ⟨.beat (.option "pick" ["A", "B", "C"]), 1, [2]⟩,
      ⟨.choice [⟨"pick", 1⟩, ⟨"pick", 2⟩], 5, [1, 3]⟩, ⟨.beat (.option "pick" ["D"]), 8, [2]⟩]
  root := 0

/-- The only choice of the graph leads to options, so no cycle is made of choices alone. -/
theorem Graph.noChoiceCycle_carousel : carousel.NoChoiceCycle := by
  have isChoice : ∀ id guards, carousel.node id = .choice guards → id = 2 := by
    intro id guards found
    have inside : id < 4 := lt_size_of_node_ne_empty (by rw [found]; exact Node.noConfusion)
    match id, inside with
    | 0, _ | 1, _ | 3, _ => nomatch found
    | 2, _ => rfl
  intro id cycle
  obtain ⟨target, ⟨⟨guards, found⟩, -⟩, -⟩ := TransGen.head'_iff.mp cycle
  obtain ⟨source, -, ⟨others, sourceFound⟩, successor⟩ := TransGen.tail'_iff.mp cycle
  obtain rfl := isChoice id guards found
  obtain rfl := isChoice source others sourceFound
  revert successor
  decide

/-- After the third of three choices, the engine is asked for the option again, with one choice.
What it remembers then is backed by the first of the two options.
-/
theorem Engine.carousel_backed
    : Graph.carousel.InRange
      ∧ Graph.carousel.NoChoiceCycle
      ∧ Backed Graph.carousel ((start Graph.carousel).calls [.advance, .select 2, .advance])
      ∧ ((start Graph.carousel).calls [.advance, .select 2, .advance]).prompt = some ⟨"pick", 1⟩
      ∧ ((start Graph.carousel).calls [.advance, .select 2, .advance]).memory.get? "pick"
          = some 2 := by
  have inRange : Graph.carousel.InRange := by decide
  obtain ⟨backed, -⟩ :=
    backed_calls inRange Graph.noChoiceCycle_carousel [.advance, .select 2, .advance]
  exact ⟨inRange, Graph.noChoiceCycle_carousel, backed, by decide +kernel, by decide +kernel⟩

end Dialogue
