import Dialogue.Proofs.Play.Runs
import Dialogue.Proofs.Script.Passage

/-! What a dialogue tree means: its performance, told on the tree itself, without a graph or an
engine.
-/

namespace Dialogue

/-- What is shown, how that stops, and what is remembered then. -/
structure Performance where
  steps : List Step
  ending : Ending
  memory : Memory
  deriving Repr, DecidableEq

def Performance.after (shown : Beat) (rest : Performance) : Performance :=
  { rest with steps := .beat shown :: rest.steps }

/-- Performs a remark and what follows it. An option takes the next answer, or the first choice when
no answer is left, and records it if there is such a choice.
-/
def Remark.perform (next : Memory → List Nat → Performance) (memory : Memory) (answers : List Nat)
    (remark : Remark)
    : Performance :=
  match remark with
  | .option _ name _ others =>
      let answer := answers.headD 0
      if answer < others.length + 1 then
        (next (memory.record name answer) answers.tail).after remark.beat
      else
        {
          steps := [.beat remark.beat]
          ending := .failed (.choiceOutOfRange name answer (others.length + 1))
          memory
        }
  | _ => (next memory answers).after remark.beat

mutual

/-- Performs a tree and what follows it, which is nothing if the tree ends the dialogue. -/
def Passage.perform (next : Memory → List Nat → Performance) (memory : Memory) (answers : List Nat)
    : Passage → Performance
  | .remark remark rest =>
      remark.perform (fun memory answers => rest.perform next memory answers) memory answers
  | .choices forks rest =>
      forks.perform (fun memory answers => rest.perform next memory answers) memory answers
  | .close .ended => ⟨[.ending], .complete, memory⟩
  | .close _ => next memory answers

/-- Performs the first branch whose guard holds, or else the last one, and what follows. -/
def Forks.perform (next : Memory → List Nat → Performance) (memory : Memory) (answers : List Nat)
    : Forks → Performance
  | .last _ body => body.perform next memory answers
  | .cons cue body rest =>
      if memory.satisfies cue.guard then body.perform next memory answers
      else rest.perform next memory answers

end

/-- What closes a tree. -/
def Passage.closing : Passage → Closing
  | .remark _ rest => rest.closing
  | .choices _ rest => rest.closing
  | .close closing => closing

/-- Whether some branch does not end the dialogue at its own end. -/
def Forks.goOn : Forks → Bool
  | .last _ body => body.closing ≠ .ended
  | .cons _ body rest => body.closing ≠ .ended || rest.goOn

/-- Whether an ending is shown behind a whole dialogue. That is so if it is closed by the tag that
leaves a branch, or if it closes on a block that some branch goes on from; then branches are
`waiting`.
-/
def Passage.trails (waiting : Bool) : Passage → Bool
  | .remark _ rest => rest.trails false
  | .choices forks rest => rest.trails forks.goOn
  | .close .ended => false
  | .close .dead => true
  | .close .runsOut => waiting

mutual

/-- Whether there is a way through a tree to what follows it. -/
def Passage.completes : Passage → Bool
  | .remark _ rest => rest.completes
  | .choices forks rest => forks.complete && rest.completes
  | .close closing => closing ≠ .ended

/-- Whether there is a way through one of the branches. -/
def Forks.complete : Forks → Bool
  | .last _ body => body.completes
  | .cons _ body rest => body.completes || rest.complete

end

mutual

/-- The options on the ways into a tree, with repetitions. There is no way past a block that no
branch leads out of.
-/
def Passage.presented : Passage → List String
  | .remark remark rest => remark.names ++ rest.presented
  | .choices forks rest =>
      forks.presented ++ (if forks.complete then rest.presented else [])
  | .close _ => []

/-- The options on the ways into branches, with repetitions. -/
def Forks.presented : Forks → List String
  | .last _ body => body.presented
  | .cons _ body rest => body.presented ++ rest.presented

end

/-- The memory in which these options are declared. -/
def Memory.declareAll (names : List String) : Memory :=
  names.foldl (fun memory name => memory.declare name) .empty

/-- Performs a whole dialogue. It begins with no answers to the options that can be presented. -/
def Passage.performance (passage : Passage) (answers : List Nat) : Performance :=
  passage.perform
    (fun memory _ => ⟨if passage.trails false then [.ending] else [], .complete, memory⟩)
    (.declareAll passage.presented) answers

namespace Engine

/-- The run of an engine is this performance. -/
def Performs (engine : Engine) (answers : List Nat) (performance : Performance) : Prop :=
  ∃ trace last,
    Plays engine answers trace performance.ending last
    ∧ trace.map Prod.snd = performance.steps
    ∧ last.memory = performance.memory

variable {engine onward : Engine} {answers : List Nat} {rest : Performance}

theorem performs_complete (stops : engine.advance = (.ok none, engine))
    : engine.Performs answers ⟨[], .complete, engine.memory⟩ :=
  ⟨[], engine, .complete stops, rfl, rfl⟩

theorem performs_ending (goes : engine.advance = (.ok (some .ending), onward))
    (remembers : onward.memory = engine.memory) (stops : onward.advance = (.ok none, onward))
    : engine.Performs answers ⟨[.ending], .complete, engine.memory⟩ :=
  ⟨_, onward, .shown goes rfl (.complete stops), rfl, remembers⟩

/-- An engine performs a remark that is no option, and then what follows. -/
theorem performs_remark {remark : Remark} (single : remark.names = [])
    (goes : engine.advance = (.ok (some (.beat remark.beat)), onward))
    {next : Memory → List Nat → Performance}
    (follows : onward.Performs answers (next onward.memory answers))
    : engine.Performs answers (remark.perform next onward.memory answers) := by
  obtain ⟨trace, last, plays, steps, remembers⟩ := follows
  cases remark with
  | option form name first others => cases single
  | scene _ | say _ _ | think _ _ _ =>
      exact ⟨_, last, .shown goes rfl plays, congrArg _ steps, remembers⟩

/-- An engine performs an option: the next answer is recorded in front of what follows, or it is
refused.
-/
theorem performs_option {form : Form} {name : String} {first : Offer} {others : List Offer}
    {asking : Engine}
    (goes
      : engine.advance = (.ok (some (.beat (Remark.option form name first others).beat)), asking))
    (opened : asking.prompt = some ⟨name, others.length + 1⟩)
    {next : Memory → List Nat → Performance}
    (follows : ∀ answer,
      { asking with memory := asking.memory.record name answer, prompt := none }.Performs
        answers.tail (next (asking.memory.record name answer) answers.tail))
    : engine.Performs answers
        ((Remark.option form name first others).perform next asking.memory answers) := by
  rcases Nat.lt_or_ge (answers.headD 0) (others.length + 1) with inRange | outOfRange
  · obtain ⟨trace, last, plays, steps, remembers⟩ := follows (answers.headD 0)
    simp only [Remark.perform, if_pos inRange]
    exact ⟨_, last, .answered goes rfl (select_of_lt opened inRange) plays, congrArg _ steps,
      remembers⟩
  · simp only [Remark.perform, if_neg (Nat.not_lt.mpr outOfRange)]
    exact ⟨_, asking, .refused goes rfl (select_of_le opened outOfRange), rfl, rfl⟩

end Engine

end Dialogue
