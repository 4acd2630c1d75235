import Dialogue.Proofs.Lint.Findings
import Dialogue.Proofs.Play.Lookup
import Dialogue.Proofs.Play.Progress

/-! Options that no reachable choice consults: however they are answered, the dialogue goes on in
the same way. Two engines stay in step while their memories differ in such an option alone.
-/

namespace Dialogue

/-- Some choice that the dialogue can reach has a guard that names the option. -/
def Graph.Consults (graph : Graph) (name : String) : Prop :=
  ∃ id ∈ graph.reachable,
    ∃ guards,
      graph.node id = .choice guards
      ∧ ∃ guard ∈ guards, guard.option = name

-----------------------------------------------------------------------------------------
-- Memories that differ in one option
-----------------------------------------------------------------------------------------

namespace Memory

/-- The memories have the same entries, except perhaps for one name. -/
def AgreesBut (name : String) (memory other : Memory) : Prop :=
  ∀ known, known ≠ name → memory.entry? known = other.entry? known

theorem AgreesBut.refl (name : String) (memory : Memory) : AgreesBut name memory memory :=
  fun _ _ => rfl

/-- Recording the same answer keeps the agreement. -/
theorem AgreesBut.record {name : String} {memory other : Memory}
    (agrees : AgreesBut name memory other) (option : String) (index : Nat)
    : AgreesBut name (memory.record option index) (other.record option index) := by
  intro known differs
  rw [entry?_record, entry?_record, agrees known differs]

/-- At the one name, recording different answers keeps the agreement, too. -/
theorem AgreesBut.record_name {name : String} {memory other : Memory}
    (agrees : AgreesBut name memory other) (index replaced : Nat)
    : AgreesBut name (memory.record name index) (other.record name replaced) := by
  intro known differs
  rw [entry?_record, entry?_record, if_neg differs, if_neg differs, agrees known differs]

/-- Where the guards hold alike the decision is the same. -/
theorem decide?_congr {memory other : Memory} {guards : List Guard}
    (alike : ∀ guard ∈ guards, memory.satisfies guard = other.satisfies guard)
    (successors : List Nat)
    : memory.decide? guards successors = other.decide? guards successors := by
  have picked : guards.findIdx? memory.satisfies = guards.findIdx? other.satisfies := by
    induction guards with
    | nil => rfl
    | cons guard rest ih =>
        have alikeInRest := ih fun later member => alike later (List.mem_cons_of_mem _ member)
        rw [List.findIdx?_cons, List.findIdx?_cons, alike guard List.mem_cons_self, alikeInRest]
  unfold decide?
  rw [picked]

end Memory

/-- Which way a dialogue goes from a slot does not depend on an option that no choice consults, by
induction from the last slot backwards.
-/
theorem Graph.Forward.resolve_congr {graph : Graph} (forward : graph.Forward) {name : String}
    (ignored : ¬ graph.Consults name) {memory other : Memory}
    (agrees : Memory.AgreesBut name memory other) (id : Nat) (reached : id ∈ graph.reachable)
    : graph.resolve memory id = graph.resolve other id := by
  by_cases choice : ∃ guards, graph.node id = .choice guards
  · obtain ⟨guards, found⟩ := choice
    have alike : ∀ guard ∈ guards, memory.satisfies guard = other.satisfies guard := by
      intro guard member
      refine Memory.satisfies_congr (agrees _ ?_)
      rintro rfl
      exact ignored ⟨id, reached, guards, found, guard, member, rfl⟩
    rw [forward.resolve_choice found, forward.resolve_choice found, Memory.decide?_congr alike]
    refine Option.bind_congr fun decision decided => ?_
    have successor := Memory.target_mem_of_decide? decided
    have later := forward id decision.target successor
    exact forward.resolve_congr ignored agrees decision.target
      (forward.mem_reachable_of_successor reached successor)
  · have plain : ∀ guards, graph.node id ≠ .choice guards :=
      fun guards found => choice ⟨guards, found⟩
    rw [resolve_of_not_choice plain, resolve_of_not_choice plain]
termination_by graph.size - id
decreasing_by omega

-----------------------------------------------------------------------------------------
-- Two engines in step
-----------------------------------------------------------------------------------------

namespace Engine

/-- The engine with another memory. -/
def remembering (memory : Memory) (engine : Engine) : Engine :=
  { engine with memory }

/-- Where the way from here is the same with another memory, going on is the same, and the other
memory is kept.
-/
theorem advance_remembering {engine : Engine} {memory : Memory}
    (same : (engine.remembering memory).target? = engine.target?)
    : (engine.remembering memory).advance
        = (engine.advance.1, engine.advance.2.remembering memory) := by
  simp only [Engine.advance, same]
  simp only [remembering]
  repeat' split
  all_goals rfl

/-- An engine is in step with itself under another memory, which agrees with its own except for one
name.
-/
structure InStep (graph : Graph) (name : String) (engine : Engine) (memory : Memory) : Prop where
  track : OnTrack graph engine
  agrees : Memory.AgreesBut name engine.memory memory

/-- Going on keeps two engines in step, if no choice consults the name. -/
theorem InStep.advance {graph : Graph} (compiled : Script.Compiled graph) {name : String}
    (ignored : ¬ graph.Consults name) {engine onward : Engine} {memory : Memory}
    {outcome : Except EngineError (Option Step)} (inStep : InStep graph name engine memory)
    (goes : engine.advance = (outcome, onward))
    : (engine.remembering memory).advance = (outcome, onward.remembering memory)
      ∧ InStep graph name onward memory := by
  have same : (engine.remembering memory).target? = engine.target? := by
    obtain rfl := inStep.track.same
    unfold target? remembering
    refine Option.bind_congr fun first head => ?_
    have successor := List.mem_of_mem_head? head
    have reached := compiled.forward.mem_reachable_of_successor inStep.track.position successor
    exact (compiled.forward.resolve_congr ignored inStep.agrees first reached).symm
  have kept := engine.memory_advance
  have onTrack := inStep.track.advance compiled
  have follows := advance_remembering same
  rw [goes] at kept onTrack follows
  exact ⟨follows, onTrack, kept ▸ inStep.agrees⟩

/-- So does answering a prompt, where the answers may differ if the prompt is the one of the name.
-/
theorem InStep.select {graph : Graph} {name : String} {engine onward : Engine} {memory : Memory}
    (inStep : InStep graph name engine memory) {prompt : Prompt}
    (opened : engine.prompt = some prompt) {index other : Nat}
    (answers : if prompt.option = name then other < prompt.count else other = index)
    (accepted : engine.select index = (.ok (), onward))
    : ∃ memoryAfter,
        (engine.remembering memory).select other = (.ok (), onward.remembering memoryAfter)
        ∧ InStep graph name onward memoryAfter := by
  have inRange : index < prompt.count := by
    by_contra outOfRange
    rw [select_of_le opened (Nat.not_lt.mp outOfRange)] at accepted
    nomatch accepted
  have otherInRange : other < prompt.count := by
    split at answers
    · exact answers
    · rwa [answers]
  have onTrack := inStep.track.select index
  rw [accepted] at onTrack
  rw [select_of_lt opened inRange] at accepted
  obtain ⟨-, rfl⟩ := Prod.mk.inj accepted
  refine ⟨memory.record prompt.option other, select_of_lt opened otherInRange, onTrack, ?_⟩
  split at answers
  · next named => exact named ▸ inStep.agrees.record_name index other
  · rw [answers]
    exact inStep.agrees.record prompt.option index

/-- The other answers answer every prompt as the answers do, except that any choice will do at the
prompts of one option. Prompts beyond the answers get the first choice.
-/
def DifferAt (name : String) (prompts : List Prompt) (answers others : List Nat) : Prop :=
  ∀ index prompt,
    prompts[index]? = some prompt
    → if prompt.option = name then others.getD index 0 < prompt.count
      else others.getD index 0 = answers.getD index 0

/-- Once the first answer is used up, later answers are one place further on. -/
theorem getD_tail (answers : List Nat) (index : Nat)
    : answers.tail.getD index 0 = answers.getD (index + 1) 0 := by
  simp only [List.getD_eq_getElem?_getD, List.getElem?_tail]

theorem differAt_cons {name : String} {prompt : Prompt} {prompts : List Prompt}
    {answers others : List Nat}
    : DifferAt name (prompt :: prompts) answers others
      ↔ (if prompt.option = name then others.headD 0 < prompt.count
          else others.headD 0 = answers.headD 0)
        ∧ DifferAt name prompts answers.tail others.tail := by
  simp only [DifferAt, getD_tail, List.headD_eq_getD]
  constructor
  · intro all
    exact ⟨all 0 prompt rfl, fun index => all (index + 1)⟩
  · rintro ⟨here, rest⟩ index asked found
    cases index with
    | zero =>
        obtain rfl := Option.some.inj found
        exact here
    | succ index => exact rest index asked found

/-- A complete run stays the same when the answers to an option that no choice consults are
replaced, and so does what is remembered of the other options. By induction on the run.
-/
theorem Plays.replaced {graph : Graph} (compiled : Script.Compiled graph) {name : String}
    (ignored : ¬ graph.Consults name) {engine last : Engine} {answers : List Nat}
    {trace : List (Nat × Step)} {ending : Ending} (plays : Plays engine answers trace ending last)
    (completes : ending = .complete) {memory : Memory}
    (inStep : InStep graph name engine memory) {others : List Nat}
    (differ : DifferAt name ((trace.map Prod.snd).filterMap Step.prompt?) answers others)
    : ∃ final,
        Plays (engine.remembering memory) others trace .complete (last.remembering final)
        ∧ Memory.AgreesBut name last.memory final := by
  induction plays generalizing memory others with
  | failed | refused => nomatch completes
  | complete stops =>
      obtain ⟨follows, after⟩ := inStep.advance compiled ignored stops
      exact ⟨memory, .complete follows, after.agrees⟩
  | shown goes plain rest ih =>
      obtain ⟨follows, after⟩ := inStep.advance compiled ignored goes
      have silent := Step.isOption_eq_false_iff.mp plain
      rw [List.map_cons, List.filterMap_cons_none silent] at differ
      obtain ⟨final, run, agrees⟩ := ih completes after differ
      have shown := Plays.shown follows plain run
      exact ⟨final, shown, agrees⟩
  | answered goes asks accepted rest ih =>
      obtain ⟨follows, asking⟩ := inStep.advance compiled ignored goes
      obtain ⟨prompt, opens⟩ := Step.isOption_iff.mp asks
      rw [List.map_cons, List.filterMap_cons_some opens, differAt_cons] at differ
      have opened := (prompt_of_advance goes).trans opens
      obtain ⟨memoryAfter, follow, after⟩ := asking.select opened differ.1 accepted
      obtain ⟨final, run, agrees⟩ := ih completes after differ.2
      have answered := Plays.answered follows asks follow run
      exact ⟨final, answered, agrees⟩

end Engine

-----------------------------------------------------------------------------------------
-- A script with an unused option
-----------------------------------------------------------------------------------------

namespace Script

/-- A script that asks for a mood and for a way, and goes one of two ways in any mood. -/
def moody : List String :=
  ["<option>mood", "<a>Glad", "<b>Sad", "</>", "<option>pick", "<a>A", "<b>B", "</>", "<choices>",
    "<pick,1>", "<A>One", "<pick,2>", "<A>Two", "</>"]

def moodyGraph : Graph where
  slots :=
    [⟨.start, 0, [1]⟩, ⟨.beat (.option "mood" ["Glad", "Sad"]), 1, [2]⟩,
      ⟨.beat (.option "pick" ["A", "B"]), 5, [3]⟩, ⟨.choice [⟨"pick", 1⟩, ⟨"pick", 2⟩], 9, [4, 6]⟩,
      ⟨.beat (.say "A" "One"), 11, [9]⟩, ⟨.dead, 11, [8]⟩, ⟨.beat (.say "A" "Two"), 13, [9]⟩,
      ⟨.dead, 13, [8]⟩, ⟨.dead, 14, [9]⟩, ⟨.ending, 0, []⟩]
  root := 0

theorem compile_moody : (compile moody).outcome = .ok moodyGraph := by
  decide +kernel

end Script

-----------------------------------------------------------------------------------------
-- Main statement
-----------------------------------------------------------------------------------------

open Engine

/-- Options that no reachable choice consults have no influence on a dialogue. When a playthrough is
complete and the answers to such an option are replaced by other choices of its prompts, then the
playthrough is complete again, with the same steps, and it remembers the same of every other option.
An option that is reported as unused is one of these.
-/
theorem Script.Compiled.play_ignores_unused {graph : Graph} (compiled : Script.Compiled graph)
    : (∀ name answers others,
        ¬ graph.Consults name
        → (graph.play answers).ending = .complete
        → DifferAt name ((graph.play answers).steps.filterMap Step.prompt?) answers others
        → (graph.play others).ending = .complete
          ∧ (graph.play others).steps = (graph.play answers).steps
          ∧ Memory.AgreesBut name (graph.play answers).memory (graph.play others).memory)
      ∧ ∀ config definition,
          Lint.unusedOption definition ∈ (Lint.check config graph).issues
          → ¬ graph.Consults definition.name := by
  constructor
  · intro name answers others ignored completes differ
    have track := onTrack_start compiled
    obtain ⟨trace, ending, last, plays, -, -⟩ := track.exists_run compiled rfl answers
    obtain ⟨steps, ends, remembers⟩ := plays.gives_play compiled
    rw [steps] at differ
    obtain ⟨final, run, agrees⟩ :=
      plays.replaced compiled ignored (ends ▸ completes) ⟨track, .refl name _⟩ differ
    obtain ⟨sameSteps, sameEnding, otherMemory⟩ := run.gives_play compiled
    refine ⟨sameEnding, sameSteps.trans steps.symm, ?_⟩
    rw [remembers, otherMemory]
    exact agrees
  · rintro config definition reported ⟨id, reached, guards, found, guard, member, named⟩
    have guarded : (graph.line id, guard) ∈ graph.guardsByLine :=
      Graph.mem_guardsByLine_iff.mpr ⟨id, reached, guards, found, member, rfl⟩
    exact Lint.unused_of_mem_check reported _ guarded named

/-- In any mood the script goes the second way when the second choice is picked. -/
theorem Script.moody_play_second
    : (compile moody).outcome = .ok moodyGraph
      ∧ Lint.unusedOption ⟨"mood", 2, 1⟩ ∈ (Lint.check {} moodyGraph).issues
      ∧ ∀ mood < 2,
          (moodyGraph.play [mood, 1]).ending = .complete
          ∧ (moodyGraph.play [mood, 1]).steps
              = [.beat (.option "mood" ["Glad", "Sad"]), .beat (.option "pick" ["A", "B"]),
                  .beat (.say "A" "Two"), .ending]
          ∧ Memory.entry? (moodyGraph.play [mood, 1]).memory "pick" = some (some 1) := by
  have reported : Lint.unusedOption ⟨"mood", 2, 1⟩ ∈ (Lint.check {} moodyGraph).issues := by
    decide +kernel
  have glad
      : (moodyGraph.play [0, 1]).ending = .complete
        ∧ (moodyGraph.play [0, 1]).steps
            = [.beat (.option "mood" ["Glad", "Sad"]), .beat (.option "pick" ["A", "B"]),
                .beat (.say "A" "Two"), .ending]
        ∧ Memory.entry? (moodyGraph.play [0, 1]).memory "pick" = some (some 1) := by
    decide +kernel
  obtain ⟨completes, steps, picked⟩ := glad
  obtain ⟨ignores, unused⟩ := Compiled.play_ignores_unused (.lines compile_moody)
  refine ⟨compile_moody, reported, fun mood inRange => ?_⟩
  have differ
      : DifferAt "mood" ((moodyGraph.play [0, 1]).steps.filterMap Step.prompt?) [0, 1]
          [mood, 1] := by
    rw [steps]
    exact differAt_cons.mpr ⟨inRange, differAt_cons.mpr ⟨rfl, nofun⟩⟩
  obtain ⟨sameEnding, sameSteps, same⟩ :=
    ignores "mood" [0, 1] [mood, 1] (unused {} _ reported) completes differ
  exact ⟨sameEnding, sameSteps.trans steps, (same "pick" (by decide)).symm.trans picked⟩

end Dialogue
