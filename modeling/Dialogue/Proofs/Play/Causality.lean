import Dialogue.Proofs.Play.Independence

/-! Answers count when they are consumed, and only then: playthroughs with answers that are the same
for some prompts are the same up to the next prompt, or altogether if there is none.
-/

namespace Dialogue

-----------------------------------------------------------------------------------------
-- Answers and steps that agree
-----------------------------------------------------------------------------------------

/-- The answers to the first prompts, of this number, are the same. Prompts beyond the answers get
the first choice.
-/
def AgreeFor (count : Nat) (answers others : List Nat) : Prop :=
  ∀ index < count, answers.getD index 0 = others.getD index 0

theorem agreeFor_succ {count : Nat} {answers others : List Nat}
    : AgreeFor (count + 1) answers others
      ↔ answers.headD 0 = others.headD 0 ∧ AgreeFor count answers.tail others.tail := by
  simp only [AgreeFor, Engine.getD_tail, List.headD_eq_getD]
  constructor
  · intro agree
    exact ⟨agree 0 (Nat.succ_pos count), fun index inside => agree (index + 1) (by omega)⟩
  · intro agree index inside
    cases index with
    | zero => exact agree.1
    | succ index => exact agree.2 index (by omega)

/-- Both playthroughs go the same way up to an option, which comes after this number of options. -/
def ShareUpTo (count : Nat) (steps others : List Step) : Prop :=
  ∃ before asked rest otherRest,
    steps = before ++ asked :: rest
    ∧ others = before ++ asked :: otherRest
    ∧ asked.isOption = true
    ∧ before.countP Step.isOption = count

theorem shareUpTo_zero {asked : Step} (asks : asked.isOption = true) (rest otherRest : List Step)
    : ShareUpTo 0 (asked :: rest) (asked :: otherRest) :=
  ⟨[], asked, rest, otherRest, rfl, rfl, asks, rfl⟩

theorem ShareUpTo.cons_plain {count : Nat} {steps others : List Step} {step : Step}
    (share : ShareUpTo count steps others) (plain : step.isOption = false)
    : ShareUpTo count (step :: steps) (step :: others) := by
  obtain ⟨before, asked, rest, otherRest, rfl, rfl, asks, counted⟩ := share
  refine ⟨step :: before, asked, rest, otherRest, rfl, rfl, asks, ?_⟩
  simpa [plain] using counted

theorem ShareUpTo.cons_option {count : Nat} {steps others : List Step} {step : Step}
    (share : ShareUpTo count steps others) (asks : step.isOption = true)
    : ShareUpTo (count + 1) (step :: steps) (step :: others) := by
  obtain ⟨before, asked, rest, otherRest, rfl, rfl, asksLater, counted⟩ := share
  refine ⟨step :: before, asked, rest, otherRest, rfl, rfl, asksLater, ?_⟩
  simpa [asks] using counted

/-- The steps that both share contain more options than this number. -/
theorem ShareUpTo.lt_countP {count : Nat} {steps others : List Step}
    (share : ShareUpTo count steps others)
    : count < steps.countP Step.isOption := by
  obtain ⟨before, asked, rest, otherRest, rfl, rfl, asks, rfl⟩ := share
  simp [asks]

-----------------------------------------------------------------------------------------
-- Two runs
-----------------------------------------------------------------------------------------

namespace Engine

/-- A run from an engine that presents an option next begins with it, by cases on the run. -/
theorem share_of_asks {engine asking last : Engine} {answers : List Nat} {step : Step}
    {trace : List (Nat × Step)} {ending : Ending}
    (goes : engine.advance = (.ok (some step), asking)) (asks : step.isOption = true)
    (rest : List Step) (plays : Plays engine answers trace ending last)
    : ShareUpTo 0 (step :: rest) (trace.map Prod.snd) := by
  cases plays with
  | answered otherGoes _ _ _ | refused otherGoes _ _ =>
      obtain ⟨rfl, rfl⟩ : _ ∧ _ := by simpa using goes.symm.trans otherGoes
      exact shareUpTo_zero asks rest _
  | complete | failed | shown => simp_all

/-- Two runs from one engine whose answers are the same for some prompts share their steps up to the
next prompt, or they ask for no more than that and are the same. By induction on one run and by
cases on the other, which begins with the same call.
-/
theorem Plays.agree {engine last other : Engine} {answers others : List Nat}
    {trace otherTrace : List (Nat × Step)} {ending otherEnding : Ending} {count : Nat}
    (left : Plays engine answers trace ending last)
    (right : Plays engine others otherTrace otherEnding other)
    (agree : AgreeFor count answers others)
    : ShareUpTo count (trace.map Prod.snd) (otherTrace.map Prod.snd)
      ∨ ((trace.map Prod.snd).countP Step.isOption ≤ count
        ∧ trace = otherTrace
        ∧ ending = otherEnding
        ∧ last = other) := by
  induction left generalizing count others otherTrace with
  | complete stops =>
      apply Or.inr
      cases right <;> simp_all
  | failed fails =>
      apply Or.inr
      cases right <;> simp_all
  | shown goes plain rest ih =>
      cases right with
      | shown otherGoes _ otherRest =>
          obtain ⟨rfl, rfl⟩ : _ ∧ _ := by simpa using goes.symm.trans otherGoes
          rcases ih otherRest agree with share | ⟨few, rfl, rfl, rfl⟩
          · exact Or.inl (share.cons_plain plain)
          · refine Or.inr ⟨?_, rfl, rfl, rfl⟩
            simpa [plain] using few
      | complete | failed | answered | refused => simp_all
  | answered goes asks accepted rest ih =>
      cases count with
      | zero => exact Or.inl (share_of_asks goes asks _ right)
      | succ count =>
          obtain ⟨same, agreeLater⟩ := agreeFor_succ.mp agree
          cases right with
          | answered otherGoes _ otherAccepted otherRest =>
              obtain ⟨rfl, rfl⟩ : _ ∧ _ := by simpa using goes.symm.trans otherGoes
              rw [same] at accepted
              obtain rfl : _ = _ := by simpa using accepted.symm.trans otherAccepted
              rcases ih otherRest agreeLater with share | ⟨few, rfl, rfl, rfl⟩
              · exact Or.inl (share.cons_option asks)
              · refine Or.inr ⟨?_, rfl, rfl, rfl⟩
                simpa [asks] using few
          | complete | failed | shown | refused => simp_all
  | refused goes asks refuses =>
      cases count with
      | zero => exact Or.inl (share_of_asks goes asks [] right)
      | succ count =>
          have same := (agreeFor_succ.mp agree).1
          apply Or.inr
          cases right <;> simp_all

end Engine

-----------------------------------------------------------------------------------------
-- Main statement
-----------------------------------------------------------------------------------------

open Engine

/-- Only the answers that a playthrough consumes matter. When it is complete, other answers that are
the same for all its prompts give the same steps and the same memory. And answers that are the same
for some prompts give playthroughs that share their steps up to the next prompt, or that ask for no
more than that and have the same steps, the same ending and the same memory.
-/
theorem Script.Compiled.play_causal {graph : Graph} (compiled : Script.Compiled graph)
    : (∀ answers others,
        (graph.play answers).ending = .complete
        → AgreeFor ((graph.play answers).steps.countP Step.isOption) answers others
        → (graph.play others).ending = .complete
          ∧ (graph.play others).steps = (graph.play answers).steps
          ∧ (graph.play others).memory = (graph.play answers).memory)
      ∧ ∀ count answers others,
          AgreeFor count answers others
          → ShareUpTo count (graph.play answers).steps (graph.play others).steps
            ∨ ((graph.play answers).steps.countP Step.isOption ≤ count
              ∧ (graph.play others).steps = (graph.play answers).steps
              ∧ (graph.play others).ending = (graph.play answers).ending
              ∧ (graph.play others).memory = (graph.play answers).memory) := by
  have common (count : Nat) (answers others : List Nat) (agree : AgreeFor count answers others)
      : ShareUpTo count (graph.play answers).steps (graph.play others).steps
        ∨ ((graph.play answers).steps.countP Step.isOption ≤ count
          ∧ (graph.play others).steps = (graph.play answers).steps
          ∧ (graph.play others).ending = (graph.play answers).ending
          ∧ (graph.play others).memory = (graph.play answers).memory) := by
    have track := onTrack_start compiled
    obtain ⟨trace, ending, last, plays, _, _⟩ := track.exists_run compiled rfl answers
    obtain ⟨otherTrace, otherEnding, other, run, _, _⟩ := track.exists_run compiled rfl others
    obtain ⟨steps, ends, remembers⟩ := plays.gives_play compiled
    obtain ⟨otherSteps, otherEnds, otherRemembers⟩ := run.gives_play compiled
    rw [steps, ends, remembers, otherSteps, otherEnds, otherRemembers]
    rcases plays.agree run agree with share | ⟨few, rfl, rfl, rfl⟩
    · exact Or.inl share
    · exact Or.inr ⟨few, rfl, rfl, rfl⟩
  refine ⟨?_, common⟩
  intro answers others completes agree
  rcases common _ answers others agree with share | ⟨_, steps, ends, remembers⟩
  · exact absurd share.lt_countP (Nat.lt_irrefl _)
  · exact ⟨ends.trans completes, steps, remembers⟩

/-- The script that asks for a mood and for a way consumes two answers. Whatever comes after these
makes no difference, and with the same mood both options are reached in the same way.
-/
theorem Script.moody_play_causal
    : (compile moody).outcome = .ok moodyGraph
      ∧ (∀ more,
          (moodyGraph.play (0 :: 1 :: more)).ending = .complete
          ∧ (moodyGraph.play (0 :: 1 :: more)).steps
              = [.beat (.option "mood" ["Glad", "Sad"]), .beat (.option "pick" ["A", "B"]),
                  .beat (.say "A" "Two"), .ending])
      ∧ ∀ other, ShareUpTo 1 (moodyGraph.play [0, 1]).steps (moodyGraph.play [0, other]).steps := by
  have completes : (moodyGraph.play [0, 1]).ending = .complete := by decide +kernel
  have steps
      : (moodyGraph.play [0, 1]).steps
        = [.beat (.option "mood" ["Glad", "Sad"]), .beat (.option "pick" ["A", "B"]),
            .beat (.say "A" "Two"), .ending] := by
    decide +kernel
  have asks : (moodyGraph.play [0, 1]).steps.countP Step.isOption = 2 := by
    rw [steps]
    rfl
  obtain ⟨consumed, common⟩ := Compiled.play_causal (.lines compile_moody)
  refine ⟨compile_moody, fun more => ?_, fun other => ?_⟩
  · have agree : AgreeFor 2 [0, 1] (0 :: 1 :: more) :=
      agreeFor_succ.mpr ⟨rfl, agreeFor_succ.mpr ⟨rfl, nofun⟩⟩
    obtain ⟨ends, same, _⟩ := consumed [0, 1] (0 :: 1 :: more) completes (asks ▸ agree)
    exact ⟨ends, same.trans steps⟩
  · have agree : AgreeFor 1 [0, 1] [0, other] := agreeFor_succ.mpr ⟨rfl, nofun⟩
    rcases common 1 [0, 1] [0, other] agree with share | ⟨few, _⟩
    · exact share
    · rw [asks] at few
      omega

end Dialogue
