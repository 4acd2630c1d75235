import Dialogue.Proofs.Play.Performance
import Dialogue.Proofs.Play.Resolution
import Dialogue.Proofs.Script.Drafting
import Dialogue.Proofs.Script.Parsing

/-! An engine on the spliced layout of a tree's outline performs the tree. -/

namespace Dialogue

open Dialogue.Graph

/-- On the spliced draft the engine goes on where an edge of the draft to this slot would lead. -/
structure Engine.Heads (draft : Graph) (slot : Nat) (engine : Engine) : Prop where
  graph : engine.graph = draft.splice
  closed : engine.prompt = none
  reaches : ∀ target ∈ draft.expand slot, target ∈ draft.splice.reachable
  target : engine.target? = (draft.expand slot).head?.bind (draft.splice.resolve engine.memory)

namespace Engine

variable {draft : Graph} {slot other : Nat} {engine : Engine}

theorem Heads.congr (heads : engine.Heads draft slot)
    (same : draft.expand slot = draft.expand other)
    : engine.Heads draft other := by
  obtain ⟨graph, closed, reaches, target⟩ := heads
  rw [same] at reaches target
  exact ⟨graph, closed, reaches, target⟩

/-- An engine that heads for nothing cannot go on. -/
theorem Heads.advance_none (heads : engine.Heads draft slot) (nothing : draft.expand slot = [])
    : engine.advance = (.ok none, engine) := by
  have target := heads.target
  rw [nothing] at target
  unfold Engine.advance
  simp only [heads.closed, target, List.head?_nil, Option.bind_none]

/-- An engine that heads for a slot goes there and presents it. -/
theorem Heads.advance_step (heads : engine.Heads draft slot) {step : Step}
    (presents : (draft.node slot).step? = some step)
    : slot ∈ draft.splice.reachable
      ∧ engine.advance
        = (.ok (some step), { engine with position := slot, prompt := step.prompt? }) := by
  have kept := Node.isPlaceholder_of_step? presents
  have plain : ∀ guards, draft.splice.node slot ≠ .choice guards := by
    intro guards
    rw [node_splice]
    rcases Node.step?_eq_some presents with ⟨shown, found, -⟩ | ⟨found, -⟩ <;> simp [found]
  have reaches := heads.reaches
  have target := heads.target
  rw [expand_of_kept kept] at reaches target
  rw [List.head?_singleton, Option.bind_some, resolve_of_not_choice plain] at target
  rw [← node_splice, ← heads.graph] at presents
  refine ⟨reaches slot List.mem_cons_self, ?_⟩
  unfold Engine.advance
  simp only [heads.closed, target, presents]

/-- From a slot that leads to another slot of the draft, an engine heads for that slot. -/
theorem heads_of_next (drafted : draft.Drafted) (graph : engine.graph = draft.splice)
    (closed : engine.prompt = none) (reached : engine.position ∈ draft.splice.reachable)
    (successor : draft.next engine.position = [other])
    : engine.Heads draft other := by
  have edges : draft.expandedNext engine.position = draft.expand other := by
    rw [expandedNext, successor, List.flatMap_singleton]
  refine ⟨graph, closed, fun target member => ?_, ?_⟩
  · rw [← edges] at member
    exact drafted.reachable_of_mem_expandedNext reached member
  · rw [target?, graph, next_splice_of_reachable reached, edges]

theorem Heads.performs_ending (heads : engine.Heads draft slot) (found : draft.node slot = .ending)
    (nowhere : draft.next slot = []) (answers : List Nat)
    : engine.Performs answers ⟨[.ending], .complete, engine.memory⟩ := by
  have presents : (draft.node slot).step? = some .ending := by rw [found]; rfl
  obtain ⟨reached, goes⟩ := heads.advance_step presents
  have edges : draft.splice.next slot = [] := by
    rw [next_splice_of_reachable reached, expandedNext, nowhere, List.flatMap_nil]
  refine Engine.performs_ending goes rfl ?_
  simp [Engine.advance, Engine.target?, Step.prompt?, heads.graph, edges]

end Engine

/-- Where a decision leads: to the successor at the place of the first guard that holds, or else to
the last one.
-/
theorem Memory.map_target_decide? (memory : Memory) (guards : List Guard) (successors : List Nat)
    : (memory.decide? guards successors).map Decision.target
      = ((guards.findIdx? memory.satisfies).bind fun branch => successors[branch]?).or
          successors.getLast? := by
  unfold decide?
  cases guards.findIdx? memory.satisfies with
  | none => cases successors.getLast? <;> simp
  | some branch =>
      cases found : successors[branch]? with
      | some target => simp [found]
      | none => cases successors.getLast? <;> simp [found]

theorem Memory.decide?_singleton (memory : Memory) (guard : Guard) (target : Nat)
    : (memory.decide? [guard] [target]).map Decision.target = some target := by
  rw [map_target_decide?, List.findIdx?_singleton]
  cases memory.satisfies guard <;> simp

/-- The first of several branches is taken if its guard holds; otherwise the others decide. -/
theorem Memory.decide?_cons (memory : Memory) (guard : Guard) (guards : List Guard) (target : Nat)
    {targets : List Nat} (filled : targets ≠ [])
    : (memory.decide? (guard :: guards) (target :: targets)).map Decision.target
      = if memory.satisfies guard then some target
        else (memory.decide? guards targets).map Decision.target := by
  rw [map_target_decide?, map_target_decide?, List.findIdx?_cons]
  cases memory.satisfies guard with
  | true => simp
  | false =>
      rw [List.getLast?_cons_of_ne_nil filled]
      cases guards.findIdx? memory.satisfies <;> simp

-----------------------------------------------------------------------------------------
-- Performing on a draft
-----------------------------------------------------------------------------------------

/-- From a slot of a remark an engine performs the remark and what it performs from the next slot.
-/
theorem Remark.performs {draft : Graph} (drafted : draft.Drafted) {remark : Remark} {slot : Nat}
    (found : draft.node slot = .beat remark.beat) (successor : draft.next slot = [slot + 1])
    {next : Memory → List Nat → Performance}
    (follows : ∀ engine : Engine,
      engine.Heads draft (slot + 1)
      → ∀ answers, engine.Performs answers (next engine.memory answers))
    {engine : Engine} (heads : engine.Heads draft slot) (answers : List Nat)
    : engine.Performs answers (remark.perform next engine.memory answers) := by
  have presents : (draft.node slot).step? = some (.beat remark.beat) := by rw [found]; rfl
  obtain ⟨reached, goes⟩ := heads.advance_step presents
  cases remark with
  | option form name first others =>
      refine Engine.performs_option goes ?_ fun answer => ?_
      · simp [Step.prompt?, Remark.beat]
      · apply follows
        exact Engine.heads_of_next drafted heads.graph rfl reached successor
  | scene _ | say _ _ | think _ _ _ =>
      refine Engine.performs_remark rfl goes ?_
      apply follows
      exact Engine.heads_of_next drafted heads.graph rfl reached successor

/-- An edge to a closed scope leads to a single slot. -/
theorem Scope.exists_expand {draft : Graph} (drafted : draft.Drafted) {scope : Scope}
    {base exit : Nat} (holds : draft.Holds base (scope.slots base exit))
    (filled : scope.isFilled = true)
    : ∃ first, draft.expand base = [first] := by
  have headFilled := scope.node_ne_empty holds (Scope.ne_unfilled_of_isFilled filled)
  exact List.length_eq_one_iff.mp (drafted.length_expand headFilled)

/-- As many branches as there are guards can be decided for. -/
theorem Branches.length_flatMap_heads {draft : Graph} (drafted : draft.Drafted)
    {branches : Branches} {base exit : Nat} (holds : draft.Holds base (branches.slots base exit))
    (proper : branches.Proper)
    : ((branches.heads base).flatMap draft.expand).length = branches.guards.length := by
  rw [drafted.length_flatMap_expand, branches.length_heads]
  intro target member
  exact (of_mem_heads holds proper member).2

mutual

/-- An engine that heads for the slots of a tree's outline performs the tree and what it performs
from the exit. By induction on the tree.
-/
theorem Passage.performs {draft : Graph} (drafted : draft.Drafted) (passage : Passage)
    {scope : Scope} (outlined : passage.Outlined scope) {base exit : Nat}
    (holds : draft.Holds base (scope.slots base exit)) (proper : scope.Proper)
    (unfilled : scope.isFilled = false → draft.expand exit = [])
    {next : Memory → List Nat → Performance}
    (follows : ∀ engine : Engine,
      engine.Heads draft exit → ∀ answers, engine.Performs answers (next engine.memory answers))
    {engine : Engine} (heads : engine.Heads draft base) (answers : List Nat)
    : engine.Performs answers (passage.perform next engine.memory answers) := by
  cases outlined with
  | @remark remark rest line scope outlined =>
      obtain ⟨-, properRest⟩ := proper
      rw [Scope.slots] at holds
      refine Remark.performs drafted holds.node_eq holds.next_eq ?_ heads answers
      intro engine heads answers
      exact rest.performs drafted outlined holds.tail properRest unfilled follows heads answers
  | @choices forks rest line branches scope inner outlined =>
      obtain ⟨-, properBranches, -, properRest⟩ := proper
      obtain ⟨found, successors, holdsBranches, holdsRest⟩ := holds.of_block
      -- the engine stays in front of the choice: where it goes next is what the choice decides
      have kept : (draft.node base).isPlaceholder = false := by rw [found]; rfl
      have reached : base ∈ draft.splice.reachable :=
        heads.reaches base (by rw [expand_of_kept kept]; exact List.mem_cons_self)
      have edges : draft.expandedNext base = (branches.heads (base + 1)).flatMap draft.expand := by
        rw [expandedNext, successors]
      refine forks.performs drafted inner holdsBranches properBranches ?_ heads.graph heads.closed
        ?_ ?_ answers
      · intro engine heads answers
        exact rest.performs drafted outlined holdsRest properRest unfilled follows heads answers
      · intro target member
        rw [← edges] at member
        exact drafted.reachable_of_mem_expandedNext reached member
      · rw [← node_splice] at found
        rw [heads.target, expand_of_kept kept, List.head?_singleton, Option.bind_some,
          drafted.forward.splice.resolve_choice found, next_splice_of_reachable reached, edges,
          Option.bind_map]
        rfl
  | ended => exact heads.performs_ending holds.node_eq holds.next_eq answers
  | dead | runsOut =>
      exact follows engine (heads.congr (Graph.Holds.expand_of_dead drafted holds)) answers
  | unfilled =>
      have nothing := drafted.expand_of_empty holds.lt_size holds.node_eq
      exact follows engine (heads.congr (nothing.trans (unfilled rfl).symm)) answers

/-- An engine that is about to decide for one of the branches of an outline performs the branch and
what it performs from the exit. By induction on the branches.
-/
theorem Forks.performs {draft : Graph} (drafted : draft.Drafted) (forks : Forks)
    {branches : Branches} (outlined : forks.Outlined branches) {base exit : Nat}
    (holds : draft.Holds base (branches.slots base exit)) (proper : branches.Proper)
    {next : Memory → List Nat → Performance}
    (follows : ∀ engine : Engine,
      engine.Heads draft exit → ∀ answers, engine.Performs answers (next engine.memory answers))
    {engine : Engine} (graph : engine.graph = draft.splice) (closed : engine.prompt = none)
    (reaches : ∀ target ∈ (branches.heads base).flatMap draft.expand,
      target ∈ draft.splice.reachable)
    (decides : engine.target?
      = ((engine.memory.decide? branches.guards ((branches.heads base).flatMap draft.expand)).map
          Decision.target).bind (draft.splice.resolve engine.memory))
    (answers : List Nat)
    : engine.Performs answers (forks.perform next engine.memory answers) := by
  cases outlined with
  | @last cue body scope outlined =>
      obtain ⟨filled, properBody, -⟩ := proper
      obtain ⟨holdsBody, -⟩ := holds.of_branch
      obtain ⟨first, expands⟩ := scope.exists_expand drafted holdsBody filled
      rw [Branches.heads, Branches.heads, List.flatMap_singleton] at reaches decides
      rw [Branches.guards, Branches.guards, expands, Memory.decide?_singleton] at decides
      have heads : engine.Heads draft base :=
        ⟨graph, closed, reaches, by rw [decides, expands, List.head?_singleton]⟩
      refine body.performs drafted outlined holdsBody properBody ?_ follows heads answers
      intro unfilled
      simp [filled] at unfilled
  | @cons cue body rest scope branches outlined others =>
      obtain ⟨filled, properBody, properRest⟩ := proper
      obtain ⟨holdsBody, holdsRest⟩ := holds.of_branch
      obtain ⟨first, expands⟩ := scope.exists_expand drafted holdsBody filled
      rw [Branches.heads, List.flatMap_cons] at reaches decides
      have someOther : (branches.heads (base + scope.size)).flatMap draft.expand ≠ [] := by
        have many := Branches.length_flatMap_heads drafted holdsRest properRest
        intro none
        rw [none] at many
        cases others <;> simp [Branches.guards] at many
      -- the last branch is taken anyway, so the first guard counts only as others are left
      rw [Branches.guards, expands, List.singleton_append,
        Memory.decide?_cons _ _ _ _ someOther] at decides
      rw [Forks.perform]
      split
      · next satisfied =>
          rw [if_pos satisfied] at decides
          have heads : engine.Heads draft base :=
            ⟨graph, closed, fun target member => reaches target (List.mem_append_left _ member),
              by rw [decides, expands, List.head?_singleton]⟩
          refine body.performs drafted outlined holdsBody properBody ?_ follows heads answers
          intro unfilled
          simp [filled] at unfilled
      · next unsatisfied =>
          rw [if_neg unsatisfied] at decides
          exact rest.performs drafted others holdsRest properRest follows graph closed
            (fun target member => reaches target (List.mem_append_right _ member)) decides answers

end

end Dialogue
