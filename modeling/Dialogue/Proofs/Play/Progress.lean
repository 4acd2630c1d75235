import Mathlib.Data.List.Perm.Subperm
import Dialogue.Proofs.Play.Calls
import Dialogue.Proofs.Script.Shape
import Dialogue.Proofs.Script.SourceOrder

/-! Playing compiled scripts: an engine always gets to a later slot that it can present, until there
is none. So every run comes to an end, and only an answer out of range makes it fail.
-/

namespace Dialogue

open Relation

namespace Script

theorem Compiled.next_ne_nil {graph : Graph} (compiled : Compiled graph) {id : Nat}
    {guards : List Guard} (found : graph.node id = .choice guards)
    : graph.next id ≠ [] := by
  obtain ⟨lines, scope, -, outlines, rfl⟩ := compiled.exists_lines
  exact outlines.drafted.next_splice_ne_nil found

/-- Following choices from a reachable slot leads to later reachable slots, by induction on the
path.
-/
theorem Compiled.reachable_of_follows {graph : Graph} (compiled : Compiled graph) {memory : Memory}
    {first last : Nat} (path : ReflTransGen (graph.Follows memory) first last)
    (reached : first ∈ graph.reachable)
    : last ∈ graph.reachable ∧ first ≤ last := by
  induction path with
  | refl => exact ⟨reached, Nat.le_refl first⟩
  | tail _ step ih =>
      have successor := step.mem_next
      have later := (compiled.forward _ _ successor).1
      exact ⟨compiled.forward.mem_reachable_of_successor ih.1 successor, by omega⟩

/-- From a successor of a reachable slot, an engine gets to a later slot that it can present. -/
theorem Compiled.exists_step {graph : Graph} (compiled : Compiled graph) (memory : Memory)
    {id first : Nat} (reached : id ∈ graph.reachable) (successor : first ∈ graph.next id)
    : ∃ target step,
        graph.resolve memory first = some target
        ∧ (graph.node target).step? = some step
        ∧ target ∈ graph.reachable
        ∧ id < target := by
  obtain ⟨target, path, plain, resolved⟩ :=
    compiled.forward.exists_resolve (fun _ _ found => compiled.next_ne_nil found) memory first
  have later := (compiled.forward id first successor).1
  have firstReached := compiled.forward.mem_reachable_of_successor reached successor
  obtain ⟨targetReached, notBefore⟩ := compiled.reachable_of_follows path firstReached
  have kept := compiled.canonical.kept target targetReached
  have notRoot : target ≠ graph.root := by
    rw [compiled.root_eq]
    omega
  refine ⟨target, ?_⟩
  cases found : graph.node target with
  | beat shown => exact ⟨.beat shown, resolved, rfl, targetReached, by omega⟩
  | ending => exact ⟨.ending, resolved, rfl, targetReached, by omega⟩
  | start => exact absurd ((compiled.canonical.start target targetReached).mp found) notRoot
  | choice guards => exact absurd found (plain guards)
  | dead => exact absurd found kept.1
  | empty => exact absurd found kept.2

end Script

namespace Engine

-----------------------------------------------------------------------------------------
-- States
-----------------------------------------------------------------------------------------

theorem onTrack_start {graph : Graph} (compiled : Script.Compiled graph)
    : OnTrack graph (start graph) :=
  onTrack_start_of_inRange compiled.inRange

/-- All that going on can do on a compiled graph. An open prompt refuses it; where the slot has no
successor the dialogue has ended; and otherwise the engine gets to a later slot and presents it.
-/
theorem OnTrack.advance_cases {graph : Graph} {engine : Engine} (compiled : Script.Compiled graph)
    (track : OnTrack graph engine)
    : (∃ prompt,
          engine.prompt = some prompt
          ∧ engine.advance = (.error (.awaitingSelection prompt.option), engine))
      ∨ (engine.prompt = none
          ∧ graph.next engine.position = []
          ∧ engine.advance = (.ok none, engine))
      ∨ ∃ target step,
          engine.prompt = none
          ∧ graph.next engine.position ≠ []
          ∧ (graph.node target).step? = some step
          ∧ target ∈ graph.reachable
          ∧ engine.position < target
          ∧ engine.advance
              = (.ok (some step), { engine with position := target, prompt := step.prompt? }) := by
  obtain rfl := track.same
  unfold advance target?
  cases engine.prompt with
  | some prompt => exact Or.inl ⟨prompt, rfl, rfl⟩
  | none =>
      refine Or.inr ?_
      cases edges : engine.graph.next engine.position with
      | nil => exact Or.inl ⟨rfl, rfl, rfl⟩
      | cons first rest =>
          have successor : first ∈ engine.graph.next engine.position := by
            rw [edges]
            exact List.mem_cons_self
          obtain ⟨target, step, resolved, presents, reached, later⟩ :=
            compiled.exists_step engine.memory track.position successor
          refine Or.inr ⟨target, step, rfl, List.cons_ne_nil _ _, presents, reached, later, ?_⟩
          simp only [List.head?_cons, Option.bind_some, resolved, presents]

theorem OnTrack.advance {graph : Graph} {engine : Engine} (compiled : Script.Compiled graph)
    (track : OnTrack graph engine)
    : OnTrack graph engine.advance.2 :=
  track.advance_of_inRange compiled.inRange

/-- Every state that an engine gets into on a compiled graph is on track. -/
theorem Visits.onTrack {graph : Graph} {engine : Engine} (compiled : Script.Compiled graph)
    (visits : Visits graph engine)
    : OnTrack graph engine :=
  visits.onTrack_of_inRange compiled.inRange

-----------------------------------------------------------------------------------------
-- Runs
-----------------------------------------------------------------------------------------

/-- What a run from a slot presents: the steps of later and later reachable slots. None comes after
an ending, and none at all where the slot has no successor.
-/
structure Surfaces (graph : Graph) (position : Nat) (trace : List (Nat × Step)) : Prop where
  later : (position :: trace.map Prod.fst).Pairwise (· < ·)
  shows : ∀ entry ∈ trace, entry.1 ∈ graph.reachable ∧ (graph.node entry.1).step? = some entry.2
  ends : trace.Pairwise fun earlier _ => earlier.2 ≠ .ending
  stops : graph.next position = [] → trace = []

/-- How a run may stop: it is complete, or its last step is an option that was answered out of
range.
-/
def Stops (answers : List Nat) (trace : List (Nat × Step)) (ending : Ending) : Prop :=
  ending = .complete
  ∨ ∃ id name choices index,
      ending = .failed (.choiceOutOfRange name index choices.length)
      ∧ trace.getLast? = some (id, .beat (.option name choices))
      ∧ index ∈ answers
      ∧ choices.length ≤ index

theorem surfaces_nil (graph : Graph) (position : Nat) : Surfaces graph position [] where
  later := List.pairwise_singleton _ _
  shows := fun _ member => nomatch member
  ends := .nil
  stops := fun _ => rfl

/-- One more step in front: an ending has no successor, so nothing comes after it. -/
theorem Surfaces.cons {graph : Graph} (compiled : Script.Compiled graph) {position target : Nat}
    {step : Step} {trace : List (Nat × Step)} (goesOn : graph.next position ≠ [])
    (presents : (graph.node target).step? = some step) (reached : target ∈ graph.reachable)
    (later : position < target) (rest : Surfaces graph target trace)
    : Surfaces graph position ((target, step) :: trace) where
  later := by
    refine List.pairwise_cons.mpr ⟨fun id member => ?_, rest.later⟩
    rcases List.mem_cons.mp member with rfl | member
    · exact later
    · exact Nat.lt_trans later ((List.pairwise_cons.mp rest.later).1 id member)
  shows := by
    intro entry member
    rcases List.mem_cons.mp member with rfl | member
    · exact ⟨reached, presents⟩
    · exact rest.shows entry member
  ends := by
    refine List.pairwise_cons.mpr ⟨fun other member same => ?_, rest.ends⟩
    obtain rfl : step = .ending := same
    have found : graph.node target = .ending := by
      rcases Node.step?_eq_some presents with ⟨shown, -, same⟩ | ⟨found, -⟩
      · nomatch same
      · exact found
    rw [rest.stops (compiled.canonical.ending target reached found)] at member
    exact List.not_mem_nil member
  stops := fun none => absurd none goesOn

/-- How a run may stop does not depend on earlier steps and answers. -/
theorem Stops.cons {answers left : List Nat} {entry : Nat × Step} {trace : List (Nat × Step)}
    {ending : Ending} (stops : Stops left trace ending) (sublist : left ⊆ answers)
    : Stops answers (entry :: trace) ending := by
  rcases stops with complete | ⟨id, name, choices, index, failed, last, member, beyond⟩
  · exact Or.inl complete
  · refine Or.inr ⟨id, name, choices, index, failed, ?_, sublist member, beyond⟩
    rw [List.getLast?_cons, last, Option.getD_some]

/-- On a compiled graph every run from a state without an open prompt comes to an end, by induction
from the last slot backwards.
-/
theorem OnTrack.exists_run {graph : Graph} (compiled : Script.Compiled graph) {engine : Engine}
    (track : OnTrack graph engine) (closed : engine.prompt = none) (answers : List Nat)
    : ∃ trace ending last,
        Plays engine answers trace ending last
        ∧ Surfaces graph engine.position trace
        ∧ Stops answers trace ending := by
  have onTrack := track.advance compiled
  rcases track.advance_cases compiled with
    ⟨prompt, opened, -⟩ | ⟨-, -, goes⟩ | ⟨target, step, -, goesOn, presents, reached, later, goes⟩
  · rw [closed] at opened
    nomatch opened
  · exact ⟨[], .complete, engine, .complete goes, surfaces_nil graph _, Or.inl rfl⟩
  have inside : target < graph.size := lt_of_mem_preorder reached
  rw [goes] at onTrack
  cases opens : step.prompt? with
  | none =>
      have plain := Step.isOption_eq_false_iff.mpr opens
      obtain ⟨trace, ending, last, plays, surfaces, stops⟩ :=
        onTrack.exists_run compiled opens answers
      exact ⟨_, ending, last, .shown goes plain plays,
        surfaces.cons compiled goesOn presents reached later, stops.cons fun _ => id⟩
  | some prompt =>
      obtain ⟨choices, node, many⟩ := node_of_prompt? presents opens
      obtain rfl : step = .beat (.option prompt.option choices) := by
        rw [node] at presents
        exact (Option.some.inj presents).symm
      have offers := List.length_pos_iff.mpr (compiled.canonical.option target reached _ _ node)
      have opened
          : ({ engine with
                position := target,
                prompt := Step.prompt? (.beat (.option prompt.option choices)) } : Engine).prompt
              = some prompt :=
        opens
      rcases Nat.lt_or_ge (answers.headD 0) prompt.count with inRange | outOfRange
      · have accepted := select_of_lt opened inRange
        have onTrack := onTrack.select (answers.headD 0)
        rw [accepted] at onTrack
        obtain ⟨trace, ending, last, plays, surfaces, stops⟩ :=
          onTrack.exists_run compiled rfl answers.tail
        exact ⟨_, ending, last, .answered goes rfl accepted plays,
          surfaces.cons compiled goesOn presents reached later,
          stops.cons fun _ => List.mem_of_mem_tail⟩
      · have refuses := select_of_le opened outOfRange
        have member : answers.headD 0 ∈ answers := by
          match answers with
          | [] => exact absurd outOfRange (by rw [many]; exact Nat.not_le_of_lt offers)
          | answer :: _ => exact List.mem_cons_self
        rw [many] at refuses outOfRange
        exact ⟨_, _, _, .refused goes rfl refuses,
          (surfaces_nil graph target).cons compiled goesOn presents reached later,
          Or.inr ⟨target, _, choices, _, rfl, rfl, member, outOfRange⟩⟩
termination_by graph.size - engine.position
decreasing_by all_goals omega

-----------------------------------------------------------------------------------------
-- What a run presents
-----------------------------------------------------------------------------------------

/-- A run presents each slot at most once and never the root, so it has fewer steps than there are
reachable slots.
-/
theorem Surfaces.length_lt {graph : Graph} {trace : List (Nat × Step)}
    (rooted : graph.root ∈ graph.reachable) (surfaces : Surfaces graph graph.root trace)
    : trace.length < graph.reachable.length := by
  have distinct : (graph.root :: trace.map Prod.fst).Nodup := surfaces.later.imp Nat.ne_of_lt
  have inside : graph.root :: trace.map Prod.fst ⊆ graph.reachable := by
    intro id member
    rcases List.mem_cons.mp member with rfl | member
    · exact rooted
    · obtain ⟨entry, shown, rfl⟩ := List.mem_map.mp member
      exact (surfaces.shows entry shown).1
  have few := (List.subperm_of_subset distinct inside).length_le
  rwa [List.length_cons, List.length_map] at few

/-- Of two steps of a run the earlier one comes from an earlier line, unless the later one is an
ending that comes from none.
-/
theorem Surfaces.pairwise_lines {graph : Graph} (compiled : Script.Compiled graph)
    {trace : List (Nat × Step)} (surfaces : Surfaces graph graph.root trace)
    : trace.Pairwise fun earlier later =>
        earlier.2 ≠ .ending
        ∧ (graph.line earlier.1 < graph.line later.1
            ∨ (later.2 = .ending ∧ graph.line later.1 = 0)) := by
  have kept (entry : Nat × Step) (member : entry ∈ trace)
      : (graph.node entry.1).isPlaceholder = false :=
    Node.isPlaceholder_of_step? (surfaces.shows entry member).2
  obtain ⟨positive, increasing⟩ := List.pairwise_cons.mp surfaces.later
  refine (surfaces.ends.and (List.pairwise_map.mp increasing)).imp_of_mem ?_
  intro earlier later earlierShown laterShown ⟨goesOn, lt⟩
  refine ⟨goesOn, ?_⟩
  have afterRoot := positive _ (List.mem_map_of_mem earlierShown)
  rcases compiled.line_lt_line afterRoot lt (kept _ earlierShown) (kept _ laterShown) with
    before | ⟨found, noLine, -⟩
  · exact Or.inl before
  · have presents := (surfaces.shows later laterShown).2
    rw [found] at presents
    exact Or.inr ⟨(Option.some.inj presents).symm, noLine⟩

/-- The steps of a run come from later and later lines, except that a final ending may come from
none. By cases on the last step.
-/
theorem Surfaces.lines {graph : Graph} (compiled : Script.Compiled graph)
    {trace : List (Nat × Step)} (surfaces : Surfaces graph graph.root trace)
    : ∃ ordered final,
        trace = ordered ++ final
        ∧ (ordered.map fun entry => graph.line entry.1).Pairwise (· < ·)
        ∧ (final = [] ∨ ∃ id, final = [(id, .ending)] ∧ graph.line id = 0) := by
  have pairwise := surfaces.pairwise_lines compiled
  rcases List.eq_nil_or_concat trace with rfl | ⟨before, last, rfl⟩
  · exact ⟨[], [], rfl, .nil, Or.inl rfl⟩
  rw [List.concat_eq_append] at pairwise ⊢
  obtain ⟨pairwiseBefore, -, fromBefore⟩ := List.pairwise_append.mp pairwise
  -- no step before the last one is an ending, so among those the lines increase
  have ordered : (before.map fun entry => graph.line entry.1).Pairwise (· < ·) := by
    refine List.pairwise_map.mpr (pairwiseBefore.imp_of_mem ?_)
    rintro earlier later - laterShown ⟨-, lines⟩
    have goesOn := (fromBefore later laterShown last (List.mem_singleton.mpr rfl)).1
    exact lines.resolve_right fun ending => goesOn ending.1
  by_cases unlined : last.2 = .ending ∧ graph.line last.1 = 0
  · exact ⟨before, [last], rfl, ordered, Or.inr ⟨last.1, by rw [← unlined.1], unlined.2⟩⟩
  · refine ⟨before ++ [last], [], (List.append_nil _).symm, ?_, Or.inl rfl⟩
    rw [List.map_append, List.pairwise_append]
    refine ⟨ordered, List.pairwise_singleton _ _, ?_⟩
    intro _ fromEarlier _ fromLast
    obtain ⟨earlier, earlierShown, rfl⟩ := List.mem_map.mp fromEarlier
    obtain rfl := List.mem_singleton.mp fromLast
    have lines := (fromBefore earlier earlierShown last (List.mem_singleton.mpr rfl)).2
    exact lines.resolve_right unlined

end Engine

-----------------------------------------------------------------------------------------
-- Main statement
-----------------------------------------------------------------------------------------

theorem Graph.size_lt_stepLimit (graph : Graph) (answers : List Nat)
    : graph.size < graph.stepLimit answers := by
  unfold stepLimit
  have positive : 0 < answers.length + graph.size + 1 := Nat.succ_pos _
  have once := Nat.le_mul_of_pos_left (graph.size + 1) positive
  omega

/-- Every run from the start of a compiled graph is what playing the graph gives: a run is as short
as the one that presents each slot at most once, since there is no other.
-/
theorem Engine.Plays.gives_play {graph : Graph} (compiled : Script.Compiled graph)
    {answers : List Nat} {trace : List (Nat × Step)} {ending : Ending} {last : Engine}
    (plays : Plays (start graph) answers trace ending last)
    : Gives trace ending last (graph.play answers) := by
  obtain ⟨others, otherEnding, other, run, surfaces, -⟩ :=
    (onTrack_start compiled).exists_run compiled rfl answers
  obtain ⟨rfl, rfl, rfl⟩ := plays.unique run
  have few := surfaces.length_lt (root_mem_preorder compiled.root_lt_size)
  have inside := graph.length_reachable_le
  have limit := graph.size_lt_stepLimit answers
  exact plays.playFor (by omega)

/-- Every playthrough of a compiled script, whatever the answers, comes to an end that its limit on
steps does not show. It presents reachable slots other than the root, each at most once; their lines
increase, except that a final ending may come from no line; and only an answer out of range makes it
fail. Wherever an engine gets, it has nothing more to present only at a slot without a successor.
-/
theorem Script.Compiled.playthrough_ends {graph : Graph} (compiled : Script.Compiled graph)
    : (∀ answers,
        ∃ trace ending last,
          Engine.Plays (Engine.start graph) answers trace ending last
          ∧ Engine.Plays.Gives trace ending last (graph.play answers)
          ∧ (trace.map Prod.fst).Nodup
          ∧ (∀ entry ∈ trace,
              entry.1 ∈ graph.reachable
              ∧ entry.1 ≠ graph.root
              ∧ (graph.node entry.1).step? = some entry.2)
          ∧ trace.length + 1 ≤ graph.reachable.length
          ∧ (∃ ordered final,
              trace = ordered ++ final
              ∧ (ordered.map fun entry => graph.line entry.1).Pairwise (· < ·)
              ∧ (final = [] ∨ ∃ id, final = [(id, .ending)] ∧ graph.line id = 0))
          ∧ Engine.Stops answers trace ending
          ∧ (answers = [] → ending = .complete))
      ∧ ∀ engine last,
          Engine.Visits graph engine
          → engine.advance = (.ok none, last)
          → graph.next engine.position = [] := by
  constructor
  · intro answers
    have rooted : graph.root ∈ graph.reachable := root_mem_preorder compiled.root_lt_size
    obtain ⟨trace, ending, last, plays, surfaces, stops⟩ :=
      (Engine.onTrack_start compiled).exists_run compiled rfl answers
    obtain ⟨positive, increasing⟩ := List.pairwise_cons.mp surfaces.later
    have few := surfaces.length_lt rooted
    refine ⟨trace, ending, last, plays, plays.gives_play compiled, increasing.imp Nat.ne_of_lt, ?_,
      few, surfaces.lines compiled, stops, ?_⟩
    · intro entry shown
      obtain ⟨reached, presents⟩ := surfaces.shows entry shown
      exact ⟨reached, Nat.ne_of_gt (positive _ (List.mem_map_of_mem shown)), presents⟩
    · rintro rfl
      refine stops.resolve_right ?_
      rintro ⟨-, -, -, index, -, -, member, -⟩
      exact List.not_mem_nil member
  · intro engine last visits stops
    rcases (visits.onTrack compiled).advance_cases compiled with
      ⟨prompt, -, goes⟩ | ⟨-, none, -⟩ | ⟨target, step, -, -, -, -, -, goes⟩
    · rw [goes] at stops
      nomatch stops
    · exact none
    · rw [goes] at stops
      nomatch stops

/-- The script with two ways is played to the end on either way, in at most four steps, and an
answer out of range stops it at its option.
-/
theorem Script.crossroads_playthrough_ends
    : (∀ answers,
        ∃ trace ending last,
          Engine.Plays (Engine.start crossroadsGraph) answers trace ending last
          ∧ trace.length ≤ 4
          ∧ Engine.Stops answers trace ending)
      ∧ (crossroadsGraph.play [1]).steps
          = [.beat (.option "pick" ["A", "B"]), .beat (.say "A" "Two"), .beat (.say "A" "After")]
      ∧ (crossroadsGraph.play [1]).ending = .complete
      ∧ (crossroadsGraph.play [2]).ending = .failed (.choiceOutOfRange "pick" 2 2) := by
  refine ⟨fun answers => ?_, by decide +kernel, by decide +kernel, by decide +kernel⟩
  obtain ⟨trace, ending, last, plays, -, -, -, few, -, stops, -⟩ :=
    (Compiled.playthrough_ends (.lines compile_crossroads)).1 answers
  have reached : crossroadsGraph.reachable.length = 5 := by decide +kernel
  exact ⟨trace, ending, last, plays, by omega, stops⟩

end Dialogue
