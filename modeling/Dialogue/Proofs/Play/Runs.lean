import Dialogue.Play.Playthrough

/-! Runs of an engine: playthroughs without a limit on their steps, as a relation. What a
playthrough with a limit gives is what the run gives, once the limit is large enough.
-/

namespace Dialogue

theorem Node.step?_eq_some {node : Node} {step : Step} (presents : node.step? = some step)
    : (∃ shown, node = .beat shown ∧ step = .beat shown) ∨ (node = .ending ∧ step = .ending) := by
  cases node with
  | beat shown => exact Or.inl ⟨shown, rfl, (Option.some.inj presents).symm⟩
  | ending => exact Or.inr ⟨rfl, (Option.some.inj presents).symm⟩
  | start | choice _ | dead | empty => nomatch presents

/-- What can be presented is kept by splicing. -/
theorem Node.isPlaceholder_of_step? {node : Node} {step : Step} (presents : node.step? = some step)
    : node.isPlaceholder = false := by
  rcases Node.step?_eq_some presents with ⟨shown, rfl, -⟩ | ⟨rfl, -⟩ <;> rfl

/-- The steps that open a prompt are the options. -/
theorem Step.isOption_iff {step : Step}
    : step.isOption = true ↔ ∃ prompt, step.prompt? = some prompt := by
  match step with
  | .beat (.option name choices) => exact iff_of_true rfl ⟨⟨name, choices.length⟩, rfl⟩
  | .beat (.scene _) | .beat (.say _ _) | .beat (.think _ _) | .ending =>
      exact iff_of_false nofun nofun

theorem Step.isOption_eq_false_iff {step : Step}
    : step.isOption = false ↔ step.prompt? = none := by
  rw [← Bool.not_eq_true, isOption_iff, Option.eq_none_iff_forall_ne_some, not_exists]

namespace Engine

/-- A run from an engine on: the answers, the steps with the numbers of their nodes, how the run
stops, and the engine at that point. The answers are used up prompt by prompt, and prompts beyond
them get the first choice.
-/
inductive Plays : Engine → List Nat → List (Nat × Step) → Ending → Engine → Prop where
  | complete {engine last : Engine} {answers : List Nat} (stops : engine.advance = (.ok none, last))
    : Plays engine answers [] .complete last
  | failed {engine last : Engine} {answers : List Nat} {error : EngineError}
      (fails : engine.advance = (.error error, last))
    : Plays engine answers [] (.failed error) last
  | shown {engine onward last : Engine} {answers : List Nat} {step : Step}
      {trace : List (Nat × Step)} {ending : Ending}
      (goes : engine.advance = (.ok (some step), onward)) (plain : step.isOption = false)
      (rest : Plays onward answers trace ending last)
    : Plays engine answers ((onward.position, step) :: trace) ending last
  | answered {engine asking onward last : Engine} {answers : List Nat} {step : Step}
      {trace : List (Nat × Step)} {ending : Ending}
      (goes : engine.advance = (.ok (some step), asking)) (asks : step.isOption = true)
      (accepted : asking.select (answers.headD 0) = (.ok (), onward))
      (rest : Plays onward answers.tail trace ending last)
    : Plays engine answers ((asking.position, step) :: trace) ending last
  | refused {engine asking last : Engine} {answers : List Nat} {step : Step} {error : EngineError}
      (goes : engine.advance = (.ok (some step), asking)) (asks : step.isOption = true)
      (refuses : asking.select (answers.headD 0) = (.error error, last))
    : Plays engine answers [(asking.position, step)] (.failed error) last

/-- The parts of a playthrough that a run determines. -/
def Plays.Gives (trace : List (Nat × Step)) (ending : Ending) (last : Engine)
    (played : Playthrough) : Prop :=
  played.steps = trace.map Prod.snd ∧ played.ending = ending ∧ played.memory = last.memory

/-- Playing with a limit that is larger than the number of steps gives what the run gives, by
induction on the run.
-/
theorem Plays.playFor {engine last : Engine} {answers : List Nat} {trace : List (Nat × Step)}
    {ending : Ending} (plays : Plays engine answers trace ending last) {limit : Nat}
    (enough : trace.length < limit)
    : Gives trace ending last (engine.playFor limit answers) := by
  obtain ⟨limit, rfl⟩ : ∃ less, limit = less + 1 :=
    Nat.exists_eq_succ_of_ne_zero (Nat.ne_zero_of_lt enough)
  rw [Engine.playFor]
  induction plays generalizing limit with
  | complete stops => simp only [stops, Gives, List.map_nil, and_self]
  | failed fails => simp only [fails, Gives, List.map_nil, and_self]
  | shown goes plain rest ih =>
      obtain ⟨less, rfl⟩ : ∃ less, limit = less + 1 :=
        Nat.exists_eq_succ_of_ne_zero (Nat.ne_zero_of_lt (Nat.lt_of_succ_lt_succ enough))
      obtain ⟨steps, ends, remembers⟩ := ih less (Nat.lt_of_succ_lt_succ enough)
      rw [← Engine.playFor] at steps ends remembers
      simp only [goes, plain, Bool.false_eq_true, if_false]
      exact ⟨congrArg _ steps, ends, remembers⟩
  | answered goes asks accepted rest ih =>
      obtain ⟨less, rfl⟩ : ∃ less, limit = less + 1 :=
        Nat.exists_eq_succ_of_ne_zero (Nat.ne_zero_of_lt (Nat.lt_of_succ_lt_succ enough))
      obtain ⟨steps, ends, remembers⟩ := ih less (Nat.lt_of_succ_lt_succ enough)
      rw [← Engine.playFor] at steps ends remembers
      simp only [goes, asks, if_true, accepted]
      exact ⟨congrArg _ steps, ends, remembers⟩
  | refused goes asks refuses =>
      simp only [goes, asks, if_true, refuses, Gives, List.map_cons, List.map_nil, and_self]

/-- A run is determined by where it begins and by its answers, by induction on one of two runs and
by cases on the other.
-/
theorem Plays.unique {engine last other : Engine} {answers : List Nat}
    {trace otherTrace : List (Nat × Step)} {ending otherEnding : Ending}
    (left : Plays engine answers trace ending last)
    (right : Plays engine answers otherTrace otherEnding other)
    : trace = otherTrace ∧ ending = otherEnding ∧ last = other := by
  induction left generalizing otherTrace with
  | complete stops => cases right <;> simp_all
  | failed fails => cases right <;> simp_all
  | refused goes asks refuses => cases right <;> simp_all
  | shown goes plain rest ih =>
      cases right with
      | shown otherGoes _ otherRest =>
          obtain ⟨rfl, rfl⟩ : _ ∧ _ := by simpa using goes.symm.trans otherGoes
          obtain ⟨rfl, rfl, rfl⟩ := ih otherRest
          exact ⟨rfl, rfl, rfl⟩
      | complete | failed | answered | refused => simp_all
  | answered goes asks accepted rest ih =>
      cases right with
      | answered otherGoes _ otherAccepted otherRest =>
          obtain ⟨rfl, rfl⟩ : _ ∧ _ := by simpa using goes.symm.trans otherGoes
          obtain rfl : _ = _ := by simpa using accepted.symm.trans otherAccepted
          obtain ⟨rfl, rfl, rfl⟩ := ih otherRest
          exact ⟨rfl, rfl, rfl⟩
      | complete | failed | shown | refused => simp_all

theorem select_of_lt {engine : Engine} {prompt : Prompt} {index : Nat}
    (opened : engine.prompt = some prompt) (inRange : index < prompt.count)
    : engine.select index
        = (.ok (), { engine with
            memory := engine.memory.record prompt.option index, prompt := none }) := by
  simp only [select, opened, if_pos inRange]

theorem select_of_le {engine : Engine} {prompt : Prompt} {index : Nat}
    (opened : engine.prompt = some prompt) (outOfRange : prompt.count ≤ index)
    : engine.select index
        = (.error (.choiceOutOfRange prompt.option index prompt.count), engine) := by
  simp only [select, opened, if_neg (Nat.not_lt.mpr outOfRange)]

/-- All that answering can do: without an open prompt nothing happens, an answer out of range is
refused, and any other answer is recorded and closes the prompt.
-/
theorem select_cases (engine : Engine) (index : Nat)
    : (engine.prompt = none ∧ engine.select index = (.ok (), engine))
      ∨ ∃ prompt,
          engine.prompt = some prompt
          ∧ ((prompt.count ≤ index
                ∧ engine.select index
                    = (.error (.choiceOutOfRange prompt.option index prompt.count), engine))
              ∨ (index < prompt.count
                ∧ engine.select index
                    = (.ok (), { engine with
                        memory := engine.memory.record prompt.option index, prompt := none }))) := by
  cases opened : engine.prompt with
  | none => exact Or.inl ⟨rfl, by simp only [select, opened]⟩
  | some prompt =>
      refine Or.inr ⟨prompt, rfl, ?_⟩
      rcases Nat.lt_or_ge index prompt.count with inRange | outOfRange
      · exact Or.inr ⟨inRange, select_of_lt opened inRange⟩
      · exact Or.inl ⟨outOfRange, select_of_le opened outOfRange⟩

/-- All that going on can do. An open prompt refuses it; where nothing comes next the dialogue has
ended; and otherwise the engine gets to what comes next and presents it, if it can be presented.
-/
theorem advance_cases (engine : Engine)
    : (∃ prompt,
          engine.prompt = some prompt
          ∧ engine.advance = (.error (.awaitingSelection prompt.option), engine))
      ∨ (engine.prompt = none
          ∧ ((engine.target? = none ∧ engine.advance = (.ok none, engine))
              ∨ ∃ target,
                  engine.target? = some target
                  ∧ (((engine.graph.node target).step? = none
                        ∧ engine.advance
                            = (.error (.unsurfaceable (engine.graph.line target)), engine))
                      ∨ ∃ step,
                          (engine.graph.node target).step? = some step
                          ∧ engine.advance
                              = (.ok (some step),
                                  { engine with position := target, prompt := step.prompt? })))) := by
  unfold advance
  cases engine.prompt with
  | some prompt => exact Or.inl ⟨prompt, rfl, rfl⟩
  | none =>
      refine Or.inr ⟨rfl, ?_⟩
      cases engine.target? with
      | none => exact Or.inl ⟨rfl, rfl⟩
      | some target =>
          refine Or.inr ⟨target, rfl, ?_⟩
          cases presents : (engine.graph.node target).step? with
          | none => exact Or.inl ⟨rfl, by simp only [presents]⟩
          | some step => exact Or.inr ⟨step, rfl, by simp only [presents]⟩

/-- Going on opens the prompt of the step that is presented. -/
theorem prompt_of_advance {engine onward : Engine} {step : Step}
    (goes : engine.advance = (.ok (some step), onward))
    : onward.prompt = step.prompt? := by
  rcases engine.advance_cases with
    ⟨prompt, -, same⟩
      | ⟨-, ⟨-, same⟩ | ⟨target, -, ⟨-, same⟩ | ⟨shown, -, onwards⟩⟩⟩
  · nomatch same.symm.trans goes
  · nomatch same.symm.trans goes
  · nomatch same.symm.trans goes
  · obtain ⟨same, rfl⟩ := Prod.mk.inj (onwards.symm.trans goes)
    obtain rfl := Option.some.inj (Except.ok.inj same)
    rfl

/-- The states that an engine can get into on a graph, whatever its calls and however they are
refused.
-/
inductive Visits (graph : Graph) : Engine → Prop where
  | start : Visits graph (Engine.start graph)
  | advance {engine : Engine} (before : Visits graph engine) : Visits graph engine.advance.2
  | select {engine : Engine} (index : Nat) (before : Visits graph engine)
    : Visits graph (engine.select index).2

end Engine

end Dialogue
