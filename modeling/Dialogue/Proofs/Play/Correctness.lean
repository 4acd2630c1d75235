import Dialogue.Proofs.Play.Declared
import Dialogue.Proofs.Play.Progress
import Dialogue.Proofs.Play.Simulation

/-! Compiler correctness: a legible tree that is written down and compiled plays as the tree is
performed, whatever the answers.
-/

namespace Dialogue

open Dialogue.Graph

/-- A dialogue can go on from the outline of a closed tree unless the tree ends it, by induction on
the tree.
-/
theorem Passage.Outlined.isLoose_iff {passage : Passage} {scope : Scope}
    (outlined : passage.Outlined scope) (filled : scope.isFilled = true)
    : scope.isLoose = true ↔ passage.closing ≠ .ended := by
  cases outlined with
  | remark rest => exact rest.isLoose_iff filled
  | choices inner rest => exact rest.isLoose_iff filled
  | ended | dead | runsOut => simp [Scope.isLoose, Passage.closing]
  | unfilled => exact Bool.noConfusion filled

/-- Some branch of an outline is loose if some branch goes on, by induction on the branches. -/
theorem Forks.Outlined.anyLoose_eq {forks : Forks} {branches : Branches}
    (outlined : forks.Outlined branches) (proper : branches.Proper)
    : branches.anyLoose = forks.goOn := by
  cases outlined with
  | last body =>
      have loose := body.isLoose_iff proper.1
      rw [Branches.anyLoose, Branches.anyLoose, Bool.or_false, Forks.goOn, Bool.eq_iff_iff, loose,
        decide_eq_true_iff]
  | cons body others =>
      obtain ⟨filled, -, properRest⟩ := proper
      have loose := body.isLoose_iff filled
      rw [Branches.anyLoose, Forks.goOn, others.anyLoose_eq properRest]
      congr 1
      rw [Bool.eq_iff_iff, loose, decide_eq_true_iff]

/-- Once the outline of a closed tree is settled, its end is loose if an ending is shown behind the
tree. By induction on the tree.
-/
theorem Passage.Outlined.isLoose_settle {passage : Passage} {scope : Scope}
    (outlined : passage.Outlined scope) (filled : scope.isFilled = true) (proper : scope.Proper)
    (waiting : Bool)
    : (scope.settle waiting).isLoose = passage.trails waiting := by
  cases outlined with
  | remark rest => exact rest.isLoose_settle filled proper.2 false
  | choices inner rest =>
      obtain ⟨-, properBranches, -, properRest⟩ := proper
      rw [Scope.settle, Scope.isLoose, Passage.trails, inner.anyLoose_eq properBranches]
      exact rest.isLoose_settle filled properRest _
  | ended | dead => rfl
  | runsOut => cases waiting <;> rfl
  | unfilled => exact Bool.noConfusion filled

/-- An engine that heads for what is behind a whole outline shows an ending there if the end is
loose, and stops.
-/
theorem Engine.Heads.performs_exit {scope : Scope} (proper : scope.Proper) {engine : Engine}
    (heads : engine.Heads scope.layout (scope.size + 1)) (answers : List Nat)
    : engine.Performs answers
        ⟨if scope.isLoose then [.ending] else [], .complete, engine.memory⟩ := by
  cases loose : scope.isLoose with
  | true =>
      refine heads.performs_ending (scope.node_layout_exit loose) ?_ answers
      rw [next, scope.slot_layout_exit loose]
  | false =>
      refine performs_complete (heads.advance_none ?_)
      rw [Scope.expand_layout_exit proper, loose]
      rfl

/-- On the spliced layout of a tree's outline an engine performs the tree, if the outline is loose
where an ending is shown behind the tree.
-/
theorem Passage.Outlined.performs_start {passage : Passage} {scope : Scope}
    (outlined : passage.Outlined scope) (proper : scope.Proper)
    (loose : scope.isLoose = passage.trails false) (answers : List Nat)
    : (Engine.start scope.layout.splice).Performs answers (passage.performance answers) := by
  have drafted := Scope.drafted_layout proper
  have root : 0 ∈ scope.layout.splice.reachable :=
    root_mem_preorder (by rw [size_splice]; exact drafted.root_lt_size)
  have heads : (Engine.start scope.layout.splice).Heads scope.layout 1 :=
    Engine.heads_of_next drafted rfl rfl root rfl
  rw [Passage.performance, ← outlined.memory_start proper, ← loose]
  exact passage.performs drafted outlined scope.holds_layout proper
    (Scope.expand_layout_of_unfilled proper)
    (fun engine heads answers => heads.performs_exit proper answers) heads answers

/-- The graph plays as the tree is performed: an engine performs the tree, and a playthrough has the
steps, the way of stopping and the memory of the performance.
-/
def Graph.PlaysAs (graph : Graph) (passage : Passage) : Prop :=
  ∀ answers,
    (Engine.start graph).Performs answers (passage.performance answers)
    ∧ (graph.play answers).steps = (passage.performance answers).steps
    ∧ (graph.play answers).ending = (passage.performance answers).ending
    ∧ (graph.play answers).memory = (passage.performance answers).memory

/-- Lines that hold the rows of a legible tree are compiled to a graph that plays as the tree is
performed, if a script has these lines.
-/
theorem Passage.Legible.playsAs {passage : Passage} (legible : passage.Legible) {lines : List Line}
    (holds : lines.map Line.row = passage.rows)
    : ∃ graph,
        (Line.compile lines).outcome = .ok graph
        ∧ (Script.Compiled graph → graph.PlaysAs passage) := by
  obtain ⟨scope, outlines, outlined, filled, proper⟩ := legible.outlines holds
  refine ⟨_, Line.compile_eq_ok_iff.mpr ⟨_, outlines, rfl⟩, fun compiled answers => ?_⟩
  have performs := (outlined.settle false).performs_start outlines.proper
    (outlined.isLoose_settle filled proper false) answers
  refine ⟨performs, ?_⟩
  obtain ⟨trace, last, plays, steps, remembers⟩ := performs
  obtain ⟨sameSteps, sameEnding, sameMemory⟩ := plays.gives_play compiled
  exact ⟨sameSteps.trans steps, sameEnding, sameMemory.trans remembers⟩

-----------------------------------------------------------------------------------------
-- Main statement
-----------------------------------------------------------------------------------------

/-- A legible tree compiles, from its lines and from every text whose lines that are not blank are
these once they are trimmed, among them the lines joined by line ends. The graph plays as the tree
is performed.
-/
theorem Passage.compile_correct {passage : Passage} (legible : passage.Legible)
    : (∃ graph,
          (Script.compile (passage.rows.map Row.render)).outcome = .ok graph
          ∧ graph.PlaysAs passage)
      ∧ (∀ source,
          (Script.numberedLines source).map Prod.snd = passage.rows.map Row.render
          → ∃ graph, (Script.compileText source).outcome = .ok graph ∧ graph.PlaysAs passage)
      ∧ (Script.numberedLines (String.intercalate "\n" (passage.rows.map Row.render))).map Prod.snd
          = passage.rows.map Row.render := by
  have plain := passage.plain_rows (passage.legibleName legible.all) legible.all
  refine ⟨?_, fun source written => ?_, Script.numberedLines_intercalate plain⟩
  · obtain ⟨lines, decoded, holds⟩ := Script.decodeAll_of_rows plain
    obtain ⟨graph, compiled, plays⟩ := legible.playsAs holds
    have whole := Script.compile_eq_ok_iff.mpr ⟨lines, decoded, compiled⟩
    exact ⟨graph, whole, plays (.lines whole)⟩
  · obtain ⟨lines, decoded, holds⟩ := Line.decodeAll_rows plain written
    obtain ⟨graph, compiled, plays⟩ := legible.playsAs holds
    have whole := Script.compileText_eq_ok_iff.mpr ⟨lines, decoded, compiled⟩
    exact ⟨graph, whole, plays (.text whole)⟩

/-- The tree of the script with two ways. -/
def Passage.crossroads : Passage :=
  .remark (.option .joined "pick" ⟨"a", "A"⟩ [⟨"b", "B"⟩])
    (.choices
      (.cons ⟨.joined, ⟨"pick", 1⟩⟩ (.close .dead)
        (.last ⟨.paired, ⟨"pick", 2⟩⟩ (.remark (.say "A" "Two") (.close .runsOut))))
      (.remark (.say "A" "After") (.close .runsOut)))

theorem Passage.legible_crossroads : crossroads.Legible := by
  decide +kernel

/-- The script with two ways is what its tree is written as, and its graph plays as the tree is
performed: with the second way the branch of its own comes first.
-/
theorem Passage.crossroads_compile_correct
    : crossroads.Legible
      ∧ crossroads.rows.map Row.render = Script.crossroads
      ∧ Script.crossroadsGraph.PlaysAs crossroads
      ∧ (crossroads.performance [1]).steps
          = [.beat (.option "pick" ["A", "B"]), .beat (.say "A" "Two"),
              .beat (.say "A" "After")] := by
  have written : crossroads.rows.map Row.render = Script.crossroads := by decide +kernel
  obtain ⟨⟨graph, compiled, plays⟩, -⟩ := compile_correct legible_crossroads
  rw [written, Script.compile_crossroads] at compiled
  obtain rfl := Except.ok.inj compiled
  exact ⟨legible_crossroads, written, plays, by decide +kernel⟩

end Dialogue
