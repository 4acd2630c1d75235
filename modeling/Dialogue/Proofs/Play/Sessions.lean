import Dialogue.Proofs.Play.Progress

/-! Sessions: an engine that is driven by calls in any order, with a record of what they gave. A
session is the beginning of the playthrough that its accepted answers determine.
-/

namespace Dialogue

/-- An engine that is being driven, with the answers that closed a prompt so far, the steps that
were presented, and whether the dialogue was found to have ended.
-/
structure Session where
  engine : Engine
  answers : List Nat
  steps : List Step
  finished : Bool
  deriving Repr, DecidableEq

namespace Session

open Engine

def start (graph : Graph) : Session :=
  ⟨Engine.start graph, [], [], false⟩

/-- The session after a call. What is refused or ignored leaves no trace in the record. -/
def call (session : Session) : Call → Session
  | .advance =>
      match session.engine.advance with
      | (.ok (some step), engine) => { session with engine, steps := session.steps ++ [step] }
      | (.ok none, engine) => { session with engine, finished := true }
      | (.error _, engine) => { session with engine }
  | .select index =>
      let engine := (session.engine.select index).2
      if session.engine.prompt.isSome && engine.prompt.isNone then
        { session with engine, answers := session.answers ++ [index] }
      else { session with engine }

/-- The session on a graph after these calls. -/
def after (graph : Graph) (made : List Call) : Session :=
  made.foldl call (start graph)

-----------------------------------------------------------------------------------------
-- Runs that go on from a session
-----------------------------------------------------------------------------------------

/-- A run goes on from the engine, which may be waiting for the first of the answers. -/
def Resumes (engine : Engine) (answers : List Nat) (trace : List (Nat × Step)) (ending : Ending)
    (last : Engine)
    : Prop :=
  match engine.prompt with
  | none => Plays engine answers trace ending last
  | some _ =>
      ∃ onward,
        engine.select (answers.headD 0) = (.ok (), onward)
        ∧ Plays onward answers.tail trace ending last

/-- What goes on after a step is, with the step, what goes on before it. By cases on whether the
step opens a prompt.
-/
theorem plays_of_resumes {engine onward last : Engine} {step : Step} {answers : List Nat}
    {trace : List (Nat × Step)} {ending : Ending}
    (goes : engine.advance = (.ok (some step), onward))
    (resumes : Resumes onward answers trace ending last)
    : Plays engine answers ((onward.position, step) :: trace) ending last := by
  unfold Resumes at resumes
  have opens := prompt_of_advance goes
  cases prompts : onward.prompt with
  | none =>
      rw [prompts] at opens resumes
      exact .shown goes (Step.isOption_eq_false_iff.mpr opens.symm) resumes
  | some prompt =>
      rw [prompts] at opens resumes
      obtain ⟨further, accepted, rest⟩ := resumes
      exact .answered goes (Step.isOption_iff.mpr ⟨prompt, opens.symm⟩) accepted rest

/-- What a session has got so far begins every run that goes on from it, and once the dialogue was
found to have ended there is nothing to go on with.
-/
structure Begins (graph : Graph) (session : Session) : Prop where
  visits : Visits graph session.engine
  resumes
    : ∃ before : List (Nat × Step),
        before.map Prod.snd = session.steps
        ∧ ∀ answers trace ending last,
            Resumes session.engine answers trace ending last
            → Plays (Engine.start graph) (session.answers ++ answers) (before ++ trace) ending last
  finished
    : session.finished = true → session.engine.prompt = none ∧ session.engine.target? = none

theorem begins_start (graph : Graph) : Begins graph (start graph) where
  visits := .start
  resumes := ⟨[], rfl, fun _ _ _ _ plays => plays⟩
  finished := nofun

/-- Going on keeps a session the beginning of runs, by the cases of going on. -/
theorem Begins.advance {graph : Graph} {session : Session} (begins : Begins graph session)
    : Begins graph (session.call .advance) := by
  have visits := begins.visits.advance
  rcases session.engine.advance_cases with
    ⟨prompt, opened, same⟩
      | ⟨closed, ⟨nothing, same⟩ | ⟨target, next, ⟨-, same⟩ | ⟨step, -, goes⟩⟩⟩
  · simp only [Session.call, same]
    exact begins
  · simp only [Session.call, same]
    exact ⟨begins.visits, begins.resumes, fun _ => ⟨closed, nothing⟩⟩
  · simp only [Session.call, same]
    exact begins
  · rw [goes] at visits
    simp only [Session.call, goes]
    obtain ⟨before, steps, resumes⟩ := begins.resumes
    refine ⟨visits, ⟨before ++ [(target, step)], by simp [steps], ?_⟩, fun finished => ?_⟩
    · intro answers trace ending last onward
      have whole := resumes answers ((target, step) :: trace) ending last (by
        unfold Resumes
        rw [closed]
        exact plays_of_resumes goes onward)
      rwa [List.append_assoc]
    · have nothing := (begins.finished finished).2
      rw [next] at nothing
      nomatch nothing

/-- So does an answer, by the cases of answering. -/
theorem Begins.select {graph : Graph} {session : Session} (begins : Begins graph session)
    (index : Nat)
    : Begins graph (session.call (.select index)) := by
  have visits := begins.visits.select index
  rcases session.engine.select_cases index with
    ⟨closed, same⟩ | ⟨prompt, opened, ⟨-, same⟩ | ⟨-, accepted⟩⟩
  · simp only [Session.call, same, closed, Option.isSome_none, Bool.false_and]
    exact begins
  · simp only [Session.call, same, opened, Option.isNone_some, Bool.and_false]
    exact begins
  · rw [accepted] at visits
    simp only [Session.call, accepted, opened, Option.isSome_some, Option.isNone_none,
      Bool.and_self, if_true]
    obtain ⟨before, steps, resumes⟩ := begins.resumes
    refine ⟨visits, ⟨before, steps, ?_⟩, fun finished => ?_⟩
    · intro answers trace ending last plays
      have whole := resumes (index :: answers) trace ending last (by
        unfold Resumes
        rw [opened]
        exact ⟨_, accepted, plays⟩)
      rwa [List.append_assoc]
    · have closed := (begins.finished finished).1
      rw [opened] at closed
      nomatch closed

/-- Whatever the calls, the session after them is the beginning of runs. By induction on the calls.
-/
theorem begins_after (graph : Graph) (made : List Call) : Begins graph (after graph made) := by
  have kept (session : Session) (begins : Begins graph session)
      : Begins graph (made.foldl call session) := by
    induction made generalizing session with
    | nil => exact begins
    | cons first rest ih =>
        refine ih _ ?_
        cases first with
        | advance => exact begins.advance
        | select index => exact begins.select index
  exact kept _ (begins_start graph)

/-- On a compiled graph some run goes on from every state, and it completes if prompts get the first
choice. By cases on whether a prompt is open.
-/
theorem exists_resumes {graph : Graph} (compiled : Script.Compiled graph) {engine : Engine}
    (track : OnTrack graph engine)
    : ∃ trace last, Resumes engine [] trace .complete last := by
  have complete {onward : Engine} (track : OnTrack graph onward) (closed : onward.prompt = none)
      : ∃ trace last, Plays onward [] trace .complete last := by
    obtain ⟨trace, ending, last, plays, -, rfl | ⟨-, -, -, index, -, -, member, -⟩⟩ :=
      track.exists_run compiled closed []
    · exact ⟨trace, last, plays⟩
    · cases member
  unfold Resumes
  cases opened : engine.prompt with
  | none => exact complete track opened
  | some prompt =>
      obtain ⟨choices, found, many⟩ := track.prompt prompt opened
      have offers : 0 < prompt.count := by
        rw [many]
        exact List.length_pos_iff.mpr
          (compiled.canonical.option engine.position track.position _ _ found)
      have accepted := select_of_lt opened offers
      have onTrack := track.select 0
      rw [accepted] at onTrack
      obtain ⟨trace, last, plays⟩ := complete onTrack rfl
      exact ⟨trace, last, _, accepted, plays⟩

end Session

-----------------------------------------------------------------------------------------
-- Main statement
-----------------------------------------------------------------------------------------

/-- Whatever the calls on an engine of a compiled graph, playing the graph with the answers that
were accepted succeeds and begins with the steps that were presented. Once the dialogue was found to
have ended these are all its steps, and the engine remembers what the playthrough does.
-/
theorem Script.Compiled.session_begins_play {graph : Graph} (compiled : Script.Compiled graph)
    (made : List Call)
    : (graph.play (Session.after graph made).answers).ending = .complete
      ∧ (Session.after graph made).steps <+: (graph.play (Session.after graph made).answers).steps
      ∧ ((Session.after graph made).finished = true
          → (Session.after graph made).steps
              = (graph.play (Session.after graph made).answers).steps
            ∧ (Session.after graph made).engine.memory
              = (graph.play (Session.after graph made).answers).memory) := by
  have begins := Session.begins_after graph made
  generalize Session.after graph made = session at begins
  obtain ⟨before, steps, resumes⟩ := begins.resumes
  have gives {trace : List (Nat × Step)} {last : Engine}
      (goesOn : Session.Resumes session.engine [] trace .complete last)
      : Engine.Plays.Gives (before ++ trace) .complete last (graph.play session.answers) := by
    have whole := resumes [] trace .complete last goesOn
    rw [List.append_nil] at whole
    exact whole.gives_play compiled
  obtain ⟨trace, last, goesOn⟩ := Session.exists_resumes compiled (begins.visits.onTrack compiled)
  obtain ⟨played, completes, -⟩ := gives goesOn
  refine ⟨completes, ⟨trace.map Prod.snd, ?_⟩, fun finished => ?_⟩
  · rw [played, List.map_append, steps]
  · obtain ⟨closed, nothing⟩ := begins.finished finished
    have stops : Session.Resumes session.engine [] [] .complete session.engine := by
      unfold Session.Resumes
      rw [closed]
      refine .complete ?_
      rw [Engine.advance, closed, nothing]
    obtain ⟨allPlayed, -, remembers⟩ := gives stops
    rw [List.append_nil, steps] at allPlayed
    exact ⟨allPlayed.symm, remembers.symm⟩

/-- Calls that are out of turn, out of range or too many. -/
def Session.fumbled : List Call :=
  [.select 1, .advance, .advance, .select 7, .select 1, .select 0, .advance, .advance, .advance,
    .advance]

/-- In the script with two ways, these calls give the playthrough of the second way, in which the
one answer that was accepted counts.
-/
theorem Script.crossroads_session
    : (compile crossroads).outcome = .ok crossroadsGraph
      ∧ (Session.after crossroadsGraph Session.fumbled).answers = [1]
      ∧ (Session.after crossroadsGraph Session.fumbled).finished = true
      ∧ (Session.after crossroadsGraph Session.fumbled).steps = (crossroadsGraph.play [1]).steps
      ∧ (Session.after crossroadsGraph Session.fumbled).engine.memory
          = (crossroadsGraph.play [1]).memory := by
  have accepted : (Session.after crossroadsGraph Session.fumbled).answers = [1] := by
    decide +kernel
  have finished : (Session.after crossroadsGraph Session.fumbled).finished = true := by
    decide +kernel
  obtain ⟨-, -, whole⟩ :=
    Script.Compiled.session_begins_play (.lines compile_crossroads) Session.fumbled
  rw [accepted] at whole
  exact ⟨compile_crossroads, accepted, finished, whole finished⟩

end Dialogue
