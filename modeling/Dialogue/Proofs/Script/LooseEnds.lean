import Dialogue.Proofs.Script.Replay

/-! No loose end is lost: while a script is assembled, every slot that a scope hands on as a loose
end is dead and has no successor, and later it gets exactly one. So in the graph that is assembled
every dead slot leads on to a slot that is kept.
-/

namespace Dialogue

open Relation

-----------------------------------------------------------------------------------------
-- Successors that are added
-----------------------------------------------------------------------------------------

namespace Act

/-- The successor that a slot gets by an act. -/
def successor? (id : Nat) : Act → Option Nat
  | .link source target => if source = id then some target else none
  | _ => none

/-- The successors that a slot gets while these acts are done. -/
def successors (id : Nat) (acts : List Act) : List Nat :=
  acts.filterMap (successor? id)

end Act

namespace Graph

variable (graph : Graph) {id : Nat}

/-- A slot that is modified is changed alone. -/
theorem slot_modify (other : Nat) (change : Slot → Slot) (inside : id < graph.size)
    : Graph.slot { graph with slots := graph.slots.modify other change } id
        = if other = id then change (graph.slot id) else graph.slot id := by
  have found : graph.slots[id]? = some graph.slots[id] := List.getElem?_eq_getElem inside
  rw [slot, slot, List.getElem?_modify, found]
  split <;> rfl

/-- A slot that is there gets no successor but by a link, by cases on the act. -/
theorem next_perform (act : Act) (inside : id < graph.size)
    : (graph.perform act).next id = graph.next id ++ (act.successor? id).toList := by
  cases act with
  | push node line =>
      rw [perform, next, slot, List.getElem?_append_left inside]
      exact (List.append_nil _).symm
  | fill other node line =>
      rw [perform, next, graph.slot_modify other _ inside]
      split <;> exact (List.append_nil _).symm
  | link source target =>
      rw [perform, next, graph.slot_modify source _ inside, Act.successor?]
      split
      · rfl
      · exact (List.append_nil _).symm
  | leave ids => exact (List.append_nil _).symm

/-- The successors of a slot that is there are those that it has and those that it gets, by
induction on the acts.
-/
theorem next_replay (acts : List Act) (inside : id < graph.size)
    : (graph.replay acts).next id = graph.next id ++ Act.successors id acts := by
  induction acts generalizing graph with
  | nil => simp [replay, Act.successors]
  | cons act rest ih =>
      have still : id < (graph.perform act).size := by rw [size_perform]; omega
      rw [replay_cons, ih _ still, next_perform graph act inside, List.append_assoc]
      cases found : act.successor? id <;> simp [Act.successors, found]

-----------------------------------------------------------------------------------------
-- Drafts without loose ends
-----------------------------------------------------------------------------------------

/-- A dead slot leads to its successor. -/
def Passes (source target : Nat) : Prop :=
  graph.node source = .dead ∧ target ∈ graph.next source

/-- No slot of the graph is a loose end, whether or not it is reachable. -/
structure Tied : Prop where
  /-- A dead slot leads to one later slot, which is not empty. -/
  dead
    : ∀ id,
        graph.node id = .dead
        → ∃ target,
            graph.next id = [target]
            ∧ id < target
            ∧ target < graph.size
            ∧ graph.node target ≠ .empty
  /-- However far one has followed dead slots, one comes to a slot that is kept. -/
  arrives
    : ∀ id,
        graph.node id = .dead
        → ∃ last,
            ReflTransGen graph.Passes id last
            ∧ graph.node last ≠ .dead
            ∧ graph.node last ≠ .empty
            ∧ ∀ other,
                ReflTransGen graph.Passes id other
                → ReflTransGen graph.Passes other last
  /-- No more than one slot is empty. -/
  oneEmpty
    : ∀ id < graph.size,
        ∀ other < graph.size, graph.node id = .empty → graph.node other = .empty → id = other
  /-- An empty slot leads nowhere, and no more than one slot leads to it. -/
  empty
    : ∀ id < graph.size,
        graph.node id = .empty
        → graph.next id = []
          ∧ ∀ first second, id ∈ graph.next first → id ∈ graph.next second → first = second
  beat : ∀ id shown, graph.node id = .beat shown → ∃ target, graph.next id = [target]
  ending : ∀ id, graph.node id = .ending → graph.next id = []
  choice
    : ∀ id guards, graph.node id = .choice guards → (graph.next id).length = guards.length

variable {graph}

theorem Drafted.next_of_passes (draft : graph.Drafted) {source target : Nat}
    (passes : graph.Passes source target)
    : graph.next source = [target] := by
  obtain ⟨only, edges, -⟩ := draft.drafts passes.1 Node.noConfusion
  have same := passes.2
  rw [edges, List.mem_singleton] at same
  rw [edges, same]

/-- Dead slots of a draft lead to a slot that is kept, by induction from the last slot backwards.
-/
theorem Drafted.exists_kept (draft : graph.Drafted) {id : Nat} (filled : graph.node id ≠ .empty)
    : ∃ last,
        ReflTransGen graph.Passes id last ∧ graph.node last ≠ .dead ∧ graph.node last ≠ .empty := by
  by_cases found : graph.node id = .dead
  · obtain ⟨target, edges, targetFilled⟩ := draft.drafts found Node.noConfusion
    have step : graph.Passes id target := ⟨found, by rw [edges]; exact List.mem_singleton.mpr rfl⟩
    have later := draft.forward id target step.2
    obtain ⟨last, onward, kept⟩ := draft.exists_kept targetFilled
    exact ⟨last, .head step onward, kept⟩
  · exact ⟨id, .refl, found, filled⟩
termination_by graph.size - id
decreasing_by omega

/-- Only a plain slot leads to an empty one, which is the next one. -/
theorem Drafted.of_mem_next_of_empty (draft : graph.Drafted) {source id : Nat}
    (successor : id ∈ graph.next source) (none : graph.node id = .empty)
    : id = source + 1 := by
  have shape := (draft.slots source (lt_size_of_mem_next successor)).drafts
  cases found : graph.node source with
  | start | beat _ =>
      rw [found] at shape
      rw [shape.2] at successor
      exact List.mem_singleton.mp successor
  | ending =>
      rw [found] at shape
      rw [shape] at successor
      exact absurd successor List.not_mem_nil
  | choice _ =>
      rw [found] at shape
      exact absurd none (shape.2.2 id successor)
  | dead =>
      rw [found] at shape
      obtain ⟨target, edges, filled⟩ := shape
      rw [edges, List.mem_singleton] at successor
      exact absurd none (successor ▸ filled)
  | empty =>
      rw [found] at shape
      rw [shape.1] at successor
      exact absurd successor List.not_mem_nil

/-- Drafts have no loose ends. -/
theorem Drafted.tied (draft : graph.Drafted) : graph.Tied where
  dead := by
    intro id found
    obtain ⟨target, edges, filled⟩ := draft.drafts found Node.noConfusion
    have later := draft.forward id target (by rw [edges]; exact List.mem_singleton.mpr rfl)
    exact ⟨target, edges, later.1, later.2, filled⟩
  arrives := by
    intro id found
    have unique : Relator.RightUnique graph.Passes := fun source target other first second =>
      List.singleton_inj.mp ((draft.next_of_passes first).symm.trans (draft.next_of_passes second))
    have filled : graph.node id ≠ .empty := by rw [found]; exact Node.noConfusion
    obtain ⟨last, path, notDead, notEmpty⟩ := draft.exists_kept filled
    refine ⟨last, path, notDead, notEmpty, fun other followed => ?_⟩
    rcases ReflTransGen.total_of_right_unique unique followed path with onward | beyond
    · exact onward
    · rcases beyond.cases_head with same | ⟨next, step, -⟩
      · rw [same]
      · exact absurd step.1 notDead
  oneEmpty := by
    intro id inside other otherInside none otherNone
    have drafts := (draft.slots id inside).drafts
    have otherDrafts := (draft.slots other otherInside).drafts
    rw [none] at drafts
    rw [otherNone] at otherDrafts
    exact Nat.succ.inj (drafts.2.trans otherDrafts.2.symm)
  empty := by
    intro id inside none
    have drafts := (draft.slots id inside).drafts
    rw [none] at drafts
    refine ⟨drafts.1, fun first second toFirst toSecond => ?_⟩
    exact Nat.succ.inj ((draft.of_mem_next_of_empty toFirst none).symm.trans
      (draft.of_mem_next_of_empty toSecond none))
  beat := fun id shown found => ⟨id + 1, (draft.drafts found Node.noConfusion).2⟩
  ending := fun id found => draft.drafts found Node.noConfusion
  choice := fun id guards found => (draft.drafts found Node.noConfusion).2.1

end Graph

-----------------------------------------------------------------------------------------
-- Main statement
-----------------------------------------------------------------------------------------

namespace Script

/-- No loose end is lost while a script that is compiled is assembled. Whenever a call that reads a
scope returns, its loose ends are dead slots without a successor, each of which gets its only
successor exactly once later on. So the graph that is assembled, reachable or not, is tied, and
splicing its placeholders out gives the compiled one.
-/
theorem compile_ties_loose_ends {texts : List String} {graph : Graph}
    (h : (compile texts).outcome = .ok graph)
    : ∃ lines history,
        Line.decodeAll (((texts.map trimmed).zipIdx 1).map Prod.swap) = .ok lines
        ∧ Line.assemble lines = .ok history
        ∧ (Graph.bare.replay history).splice = graph
        ∧ (Graph.bare.replay history).Tied
        ∧ ∀ before ids after,
            history = before ++ .leave ids :: after
            → ∀ id ∈ ids,
                (Graph.bare.replay before).node id = .dead
                ∧ (Graph.bare.replay before).next id = []
                ∧ ∃ target,
                    Act.successors id after = [target]
                    ∧ (Graph.bare.replay history).next id = [target] := by
  obtain ⟨lines, decoded, compiled⟩ := compile_eq_ok_iff.mp h
  obtain ⟨scope, outlines, spliced⟩ := Line.compile_eq_ok_iff.mp compiled
  obtain ⟨replays, returns⟩ := Scope.performs_history outlines.proper
  have assembled := Line.assemble_eq_ok_iff.mpr ⟨scope, outlines, rfl⟩
  refine ⟨lines, scope.history, decoded, assembled, ?_, ?_, ?_⟩
  · rw [replays, spliced]
  · rw [replays]
    exact outlines.drafted.tied
  · intro before ids after split id member
    rw [split] at returns
    obtain ⟨line, target, opened, complete⟩ := returns.loose id member
    have found : (Graph.bare.replay before).node id = .dead := congrArg Slot.node opened
    have none : (Graph.bare.replay before).next id = [] := congrArg Slot.next opened
    have only : (Graph.bare.replay scope.history).next id = [target] := by
      rw [replays]
      exact congrArg Slot.next complete
    have inside : id < (Graph.bare.replay before).size :=
      Graph.lt_size_of_node_ne_empty (by rw [found]; exact Node.noConfusion)
    refine ⟨found, none, target, ?_, only⟩
    -- the return itself gives no successor, so the only one comes after it
    rw [split, Graph.replay_append, Graph.next_replay _ _ inside, none, List.nil_append] at only
    exact only

/-- What is done to assemble the script with two ways. Its branches are left with the loose ends 3
and 5, which are linked to what comes after their block.
-/
def crossroadsHistory : List Act :=
  [.push .empty 0, .fill 1 (.beat (.option "pick" ["A", "B"])) 1, .push .empty 0, .link 1 2,
    .fill 2 (.choice [⟨"pick", 1⟩, ⟨"pick", 2⟩]) 5, .push .empty 0, .fill 3 .dead 7, .leave [3],
    .link 2 3, .push .empty 0, .fill 4 (.beat (.say "A" "Two")) 9, .push .empty 0, .link 4 5,
    .fill 5 .dead 9, .leave [5], .link 2 4, .push .empty 0, .fill 6 (.beat (.say "A" "After")) 11,
    .link 3 6, .link 5 6, .push .empty 0, .link 6 7, .leave [], .link 0 1]

theorem assemble_crossroads
    : (Line.decodeAll (((crossroads.map trimmed).zipIdx 1).map Prod.swap) >>= Line.assemble)
        = .ok crossroadsHistory := by
  decide +kernel

/-- In the script with two ways, the loose end of the first branch is dead and leads nowhere when
the branch is left, and later it is linked once, to the slot after the block.
-/
theorem crossroads_ties_loose_ends
    : (compile crossroads).outcome = .ok crossroadsGraph
      ∧ (Graph.bare.replay crossroadsHistory).splice = crossroadsGraph
      ∧ (Graph.bare.replay crossroadsHistory).Tied
      ∧ ∃ before after,
          crossroadsHistory = before ++ .leave [3] :: after
          ∧ (Graph.bare.replay before).node 3 = .dead
          ∧ (Graph.bare.replay before).next 3 = []
          ∧ Act.successors 3 after = [6] := by
  obtain ⟨lines, history, decoded, assembled, spliced, tied, each⟩ :=
    compile_ties_loose_ends compile_crossroads
  obtain rfl : history = crossroadsHistory :=
    Except.ok.inj ((bind_eq_ok_iff.mpr ⟨lines, decoded, assembled⟩).symm.trans assemble_crossroads)
  obtain ⟨dead, none, -⟩ := each (crossroadsHistory.take 7) [3] (crossroadsHistory.drop 8) rfl 3
    (List.mem_singleton.mpr rfl)
  exact ⟨compile_crossroads, spliced, tied, _, _, rfl, dead, none, rfl⟩

end Script

end Dialogue
