import Mathlib.Computability.StateTransition
import Dialogue.Graph.InPlace
import Dialogue.Proofs.Graph.Splicing

/-! Splicing in place comes to an end on every graph without cycles of placeholders, and ends with
the spliced graph. At every moment of the walk the edges of the visited slots are expanded and all
others are as they were, so what is read from a rewritten slot expands to the same nodes.
-/

namespace Dialogue.Graph

open Relation

-----------------------------------------------------------------------------------------
-- The edges of one slot
-----------------------------------------------------------------------------------------

section WithNext

variable (graph : Graph) (id : Nat) (edges : List Nat)

@[simp] theorem size_withNext : (graph.withNext id edges).size = graph.size := by
  simp [size, withNext]

@[simp] theorem root_withNext : (graph.withNext id edges).root = graph.root :=
  rfl

theorem slot_withNext (inside : id < graph.size) (other : Nat)
    : (graph.withNext id edges).slot other
        = if other = id then { graph.slot id with next := edges } else graph.slot other := by
  by_cases same : other = id
  · subst same
    have found : graph.slots[other]? = some graph.slots[other] := List.getElem?_eq_getElem inside
    simp [Graph.slot, withNext, found]
  · simp [Graph.slot, withNext, same, Ne.symm same]

end WithNext

section Rewriting

variable {graph : Graph} {id : Nat}

theorem node_withNext (inside : id < graph.size) (edges : List Nat) (other : Nat)
    : (graph.withNext id edges).node other = graph.node other := by
  rw [node, slot_withNext graph id edges inside]
  split
  · next same => rw [same, node]
  · rfl

theorem next_withNext (inside : id < graph.size) (edges : List Nat) (other : Nat)
    : (graph.withNext id edges).next other = if other = id then edges else graph.next other := by
  rw [next, slot_withNext graph id edges inside]
  split <;> rfl

theorem withNext_withNext (inside : id < graph.size) (first last : List Nat)
    : (graph.withNext id first).withNext id last = graph.withNext id last := by
  refine eq_of_slot rfl (by simp) fun other => ?_
  rw [slot_withNext _ _ _ (by simpa using inside), slot_withNext _ _ _ inside,
    slot_withNext _ _ _ inside, slot_withNext _ _ _ inside]
  split <;> simp

theorem withNext_next (inside : id < graph.size) : graph.withNext id (graph.next id) = graph := by
  refine eq_of_slot rfl (by simp) fun other => ?_
  rw [slot_withNext _ _ _ inside]
  split
  · next same => rw [same]; rfl
  · rfl

end Rewriting

-----------------------------------------------------------------------------------------
-- Steps on the edges of one slot
-----------------------------------------------------------------------------------------

section Steps

variable {graph : Graph} {visited waiting : List Nat} {id position target : Nat}

/-- At the end of the edges these are waiting. -/
theorem step_done (inside : id < graph.size) (done : position = (graph.next id).length)
    : Walk.step ⟨graph, visited, waiting, some (id, position)⟩
        = some ⟨graph, visited, graph.next id ++ waiting, none⟩ := by
  rw [Walk.step, getElem?_slots inside]
  simp [done, next]

theorem step_keep (inside : id < graph.size)
    (here : (graph.next id)[position]? = some target) (targetInside : target < graph.size)
    (kept : (graph.node target).isPlaceholder = false)
    : Walk.step ⟨graph, visited, waiting, some (id, position)⟩
        = some ⟨graph, visited, waiting, some (id, position + 1)⟩ := by
  rw [Walk.step, getElem?_slots inside]
  unfold next at here
  unfold node at kept
  simp [here, getElem?_slots targetInside, kept]

theorem step_replace (inside : id < graph.size)
    (here : (graph.next id)[position]? = some target) (targetInside : target < graph.size)
    (gone : (graph.node target).isPlaceholder = true)
    : Walk.step ⟨graph, visited, waiting, some (id, position)⟩
        = some ⟨
            graph.withNext id
              ((graph.next id).take position ++ graph.next target
                ++ (graph.next id).drop (position + 1)),
            visited, waiting, some (id, position)⟩ := by
  rw [Walk.step, getElem?_slots inside]
  unfold node at gone
  simp only [next] at here ⊢
  simp [here, getElem?_slots targetInside, gone]

/-- The walk rewrites the edges of a slot, of which some are finished. -/
def rewritingEdges (graph : Graph) (id : Nat) (visited waiting : List Nat)
    (edges : List Nat × List Nat)
    : Walk :=
  ⟨graph.withNext id (edges.1 ++ edges.2), visited, waiting, some (id, edges.1.length)⟩

/-- The way from an edge through placeholders does not come through a slot. -/
def Avoids (graph : Graph) (id target : Nat) : Prop :=
  ∀ met, ReflTransGen graph.PassesTo target met → (graph.node met).isPlaceholder = true → met ≠ id

/-- A step on the edges of a slot is a step of splicing them, since the edges of the placeholder
that gives way are not the ones being rewritten. By cases on the step.
-/
theorem SpliceStep.step_eq {edges after : List Nat × List Nat}
    (splices : graph.SpliceStep edges after) (inside : id < graph.size)
    (met : ∀ target ∈ edges.2, target < graph.size ∧ graph.Avoids id target)
    : (graph.rewritingEdges id visited waiting edges).step
        = some (graph.rewritingEdges id visited waiting after) := by
  cases splices with
  | @keep finished rest target kept =>
      obtain ⟨targetInside, -⟩ := met target List.mem_cons_self
      have here : ((graph.withNext id (finished ++ target :: rest)).next id)[finished.length]?
          = some target := by
        simp [next_withNext inside]
      rw [rewritingEdges, step_keep (by simpa using inside) here (by simpa using targetInside)
        (by simpa [node_withNext inside] using kept)]
      simp [rewritingEdges]
  | @replace finished rest target gone =>
      obtain ⟨targetInside, avoids⟩ := met target List.mem_cons_self
      have other : target ≠ id := avoids target .refl gone
      have here : ((graph.withNext id (finished ++ target :: rest)).next id)[finished.length]?
          = some target := by
        simp [next_withNext inside]
      rw [rewritingEdges, step_replace (by simpa using inside) here (by simpa using targetInside)
        (by simpa [node_withNext inside] using gone), withNext_withNext inside]
      simp [rewritingEdges, next_withNext inside, other]

/-- The walk finishes the edges of a slot as splicing them ends, by induction on the steps. -/
theorem reaches_of_spliceSteps (inRange : graph.InRange) (inside : id < graph.size)
    (visited waiting : List Nat) {edges : List Nat × List Nat} {done : List Nat}
    (steps : ReflTransGen graph.SpliceStep edges (done, []))
    (met : ∀ target ∈ edges.2, target < graph.size ∧ graph.Avoids id target)
    : StateTransition.Reaches Walk.step (graph.rewritingEdges id visited waiting edges)
        ⟨graph.withNext id done, visited, done ++ waiting, none⟩ := by
  induction steps using ReflTransGen.head_induction_on with
  | refl =>
      have ended : Walk.step ⟨graph.withNext id done, visited, waiting, some (id, done.length)⟩
          = some ⟨graph.withNext id done, visited, (graph.withNext id done).next id ++ waiting,
              none⟩ :=
        step_done (by simpa using inside) (by simp [next_withNext inside])
      refine .single ?_
      simpa [rewritingEdges, next_withNext inside] using ended
  | head splices _ ih =>
      refine .head (splices.step_eq inside met) (ih ?_)
      cases splices with
      | keep kept => exact fun target member => met target (List.mem_cons_of_mem _ member)
      | @replace finished rest placeholder gone =>
          intro target member
          rcases List.mem_append.mp member with successor | later
          · obtain ⟨-, avoids⟩ := met placeholder List.mem_cons_self
            refine ⟨inRange.lt_size_of_mem_next successor, fun other path => ?_⟩
            exact avoids other (.head ⟨gone, successor⟩ path)
          · exact met target (List.mem_cons_of_mem _ later)

/-- The walk finishes the edges of a slot with its expanded edges: without a cycle of placeholders
the way through them never comes back to the slot.
-/
theorem reaches_expandedNext (inRange : graph.InRange) (noCycle : graph.NoPlaceholderCycle)
    (inside : id < graph.size) (visited waiting : List Nat)
    : StateTransition.Reaches Walk.step ⟨graph, visited, waiting, some (id, 0)⟩
        ⟨graph.withNext id (graph.expandedNext id), visited, graph.expandedNext id ++ waiting,
          none⟩ := by
  have steps := noCycle.spliceSteps id
  have rewritten := reaches_of_spliceSteps inRange inside visited waiting steps ?_
  · simpa [rewritingEdges, withNext_next inside] using rewritten
  · intro target successor
    refine ⟨inRange.lt_size_of_mem_next successor, fun other path gone => ?_⟩
    rintro rfl
    exact noCycle other (.head' ⟨gone, successor⟩ path)

end Steps

-----------------------------------------------------------------------------------------
-- Graphs that are spliced in part
-----------------------------------------------------------------------------------------

section SpliceAt

variable {graph : Graph} {ids : List Nat}

theorem spliceAt_nil (graph : Graph) : graph.spliceAt [] = graph :=
  eq_of_slot rfl (by simp) fun id => by simp [slot_spliceAt]

/-- Which slots are spliced matters, not their order. -/
theorem spliceAt_congr {others : List Nat} (same : ∀ id, id ∈ ids ↔ id ∈ others)
    : graph.spliceAt ids = graph.spliceAt others :=
  eq_of_slot rfl (by simp) fun id => by simp only [slot_spliceAt, same]

theorem InRange.spliceAt (inRange : graph.InRange) : (graph.spliceAt ids).InRange := by
  apply inRange_of_next
  · simpa using inRange.1
  · intro source target successor
    rw [next_spliceAt] at successor
    rw [size_spliceAt]
    split at successor
    · exact lt_size_of_not_placeholder (kept_of_mem_expandedNext successor)
    · exact inRange.lt_size_of_mem_next successor

/-- Expanded edges lead to no placeholder, so the edges between placeholders are the old ones. -/
theorem PassesTo.of_spliceAt {source target : Nat}
    (passes : (graph.spliceAt ids).PassesTo source target)
    (gone : (graph.node target).isPlaceholder = true)
    : graph.PassesTo source target := by
  obtain ⟨sourceGone, successor⟩ := passes
  rw [node_spliceAt] at sourceGone
  rw [next_spliceAt] at successor
  split at successor
  · have kept := kept_of_mem_expandedNext successor
    simp [kept] at gone
  · exact ⟨sourceGone, successor⟩

theorem NoPlaceholderCycle.spliceAt (noCycle : graph.NoPlaceholderCycle)
    : (graph.spliceAt ids).NoPlaceholderCycle := by
  have old {source target : Nat} (path : TransGen (graph.spliceAt ids).PassesTo source target)
      (gone : (graph.node target).isPlaceholder = true)
      : TransGen graph.PassesTo source target := by
    induction path with
    | single passes => exact .single (passes.of_spliceAt gone)
    | tail _ passes ih =>
        have middleGone := passes.1
        rw [node_spliceAt] at middleGone
        exact .tail (ih middleGone) (passes.of_spliceAt gone)
  intro id cycle
  obtain ⟨_, passes, -⟩ := TransGen.head'_iff.mp cycle
  exact noCycle id (old cycle (by simpa using passes.1))

/-- Splicing some slots first makes no difference to what an edge expands to, by induction on the
slots that are met.
-/
theorem NoPlaceholderCycle.expand_spliceAt (noCycle : graph.NoPlaceholderCycle) (id : Nat)
    : (graph.spliceAt ids).expand id = graph.expand id := by
  cases gone : (graph.node id).isPlaceholder with
  | false => rw [expand_of_kept gone, expand_of_kept (by simpa using gone)]
  | true =>
      rw [noCycle.spliceAt.expand_of_placeholder (by simpa using gone), next_spliceAt,
        noCycle.expand_of_placeholder gone]
      split
      · exact flatMap_expand_of_kept fun target found => by
          simpa using kept_of_mem_expandedNext found
      · refine List.flatMap_congr fun target successor => ?_
        have fewer := noCycle.ncard_passed_lt ⟨gone, successor⟩
        exact noCycle.expand_spliceAt target
termination_by (graph.passed id).ncard

theorem NoPlaceholderCycle.expandedNext_spliceAt (noCycle : graph.NoPlaceholderCycle) (id : Nat)
    : (graph.spliceAt ids).expandedNext id = graph.expandedNext id := by
  rw [expandedNext, next_spliceAt]
  split
  · exact flatMap_expand_of_kept fun target found => by
      simpa using kept_of_mem_expandedNext found
  · exact List.flatMap_congr fun target _ => noCycle.expand_spliceAt target

/-- The walk enters one more slot: its edges are rewritten to what they expand to. -/
theorem reaches_enter (inRange : graph.InRange) (noCycle : graph.NoPlaceholderCycle) {id : Nat}
    (inside : id < graph.size) (fresh : id ∉ ids) (waiting : List Nat)
    : StateTransition.Reaches Walk.step ⟨graph.spliceAt ids, ids, id :: waiting, none⟩
        ⟨graph.spliceAt (id :: ids), id :: ids, graph.expandedNext id ++ waiting, none⟩ := by
  have insideToo : id < (graph.spliceAt ids).size := by simpa using inside
  have same : (graph.spliceAt ids).withNext id (graph.expandedNext id)
      = graph.spliceAt (id :: ids) := by
    refine eq_of_slot rfl (by simp) fun other => ?_
    rw [slot_withNext _ _ _ insideToo, slot_spliceAt, slot_spliceAt, slot_spliceAt]
    by_cases same : other = id
    · simp [same, fresh]
    · simp [same]
  have enters : Walk.step ⟨graph.spliceAt ids, ids, id :: waiting, none⟩
      = some ⟨graph.spliceAt ids, id :: ids, waiting, some (id, 0)⟩ := by
    simp [Walk.step, fresh]
  have rewritten :=
    reaches_expandedNext inRange.spliceAt noCycle.spliceAt insideToo (id :: ids) waiting
  rw [noCycle.expandedNext_spliceAt, same] at rewritten
  exact .head enters rewritten

end SpliceAt

-----------------------------------------------------------------------------------------
-- The walk
-----------------------------------------------------------------------------------------

section Walk

variable {graph : Graph} {unseen visited waiting : List Nat}

/-- Waiting slots that were entered already are passed over, by induction on the list. -/
theorem reaches_dropWhile (agree : ∀ id < graph.size, id ∈ unseen ↔ id ∉ visited)
    (inside : ∀ id ∈ waiting, id < graph.size) (current : Graph)
    : StateTransition.Reaches Walk.step ⟨current, visited, waiting, none⟩
        ⟨current, visited, waiting.dropWhile (· ∉ unseen), none⟩ := by
  induction waiting with
  | nil => exact .refl
  | cons id rest ih =>
      by_cases seen : id ∈ unseen
      · rw [List.dropWhile_cons_of_neg (by simpa using seen)]
        exact .refl
      · have old : id ∈ visited := by
          simpa [seen] using agree id (inside id List.mem_cons_self)
        rw [List.dropWhile_cons_of_pos (by simpa using seen)]
        refine .head ?_ (ih fun other member => inside other (List.mem_cons_of_mem _ member))
        simp [Walk.step, old]

/-- The walk expands the edges of the slots that a walk along expanded edges enters, by induction on
that walk.
-/
theorem reaches_spliceAt (inRange : graph.InRange) (noCycle : graph.NoPlaceholderCycle)
    (distinct : unseen.Nodup) (agree : ∀ id < graph.size, id ∈ unseen ↔ id ∉ visited)
    (inside : ∀ id ∈ waiting, id < graph.size)
    : ∃ entered,
        StateTransition.Reaches Walk.step ⟨graph.spliceAt visited, visited, waiting, none⟩
          ⟨graph.spliceAt (enterAll graph.expandedNext unseen waiting ++ visited), entered, [],
            none⟩ := by
  induction unseen, waiting using enterAll.induct graph.expandedNext generalizing visited with
  | case1 unseen waiting none =>
      have passed := reaches_dropWhile agree inside (graph.spliceAt visited)
      rw [none] at passed
      rw [enterAll_of_dropWhile_nil none, List.nil_append]
      exact ⟨visited, passed⟩
  | case2 unseen waiting first rest found ih =>
      have passed := reaches_dropWhile agree inside (graph.spliceAt visited)
      rw [found] at passed
      have kept : first :: rest ⊆ waiting := by
        rw [← found]
        exact List.dropWhile_subset _
      have isUnseen := mem_of_dropWhile_eq_cons found
      have firstInside := inside first (kept List.mem_cons_self)
      have fresh := (agree first firstInside).mp isUnseen
      have agreeLater
          : ∀ id < graph.size, id ∈ unseen.erase first ↔ id ∉ first :: visited := by
        intro id idInside
        rw [distinct.mem_erase_iff, agree id idInside, List.mem_cons, not_or]
      have insideLater : ∀ id ∈ graph.expandedNext first ++ rest, id < graph.size := by
        intro id member
        rcases List.mem_append.mp member with successor | later
        · exact lt_size_of_not_placeholder (kept_of_mem_expandedNext successor)
        · exact inside id (kept (List.mem_cons_of_mem _ later))
      obtain ⟨entered, onward⟩ := ih (distinct.erase first) agreeLater insideLater
      have same : graph.spliceAt
          (enterAll graph.expandedNext (unseen.erase first) (graph.expandedNext first ++ rest)
            ++ first :: visited)
          = graph.spliceAt (enterAll graph.expandedNext unseen waiting ++ visited) := by
        rw [enterAll_of_dropWhile_cons found]
        exact spliceAt_congr fun id => by simp [or_left_comm]
      rw [same] at onward
      have enters := reaches_enter inRange noCycle firstInside fresh rest
      exact ⟨entered, passed.trans (enters.trans onward)⟩

end Walk

-----------------------------------------------------------------------------------------
-- Where the walk ends
-----------------------------------------------------------------------------------------

/-- The walk from the root of the graph comes to an end, with this graph. -/
def SplicesInPlace (graph result : Graph) : Prop :=
  ∃ visited, StateTransition.Reaches Walk.step (.start graph) ⟨result, visited, [], none⟩

/-- The walk ends with one graph only, as there is one step at most. -/
theorem SplicesInPlace.unique {graph left right : Graph} (first : graph.SplicesInPlace left)
    (second : graph.SplicesInPlace right)
    : left = right := by
  have last {result : Graph} {visited : List Nat} {walk : Walk}
      (more : StateTransition.Reaches Walk.step ⟨result, visited, [], none⟩ walk)
      : walk.graph = result := by
    rcases ReflTransGen.cases_head more with same | ⟨_, step, _⟩
    · rw [← same]
    · cases step
  obtain ⟨_, leftEnd⟩ := first
  obtain ⟨_, rightEnd⟩ := second
  rcases StateTransition.reaches_total leftEnd rightEnd with onward | onward
  · exact (last onward).symm
  · exact last onward

/-- Splicing in place comes to an end, with the spliced graph. -/
theorem splicesInPlace_splice {graph : Graph} (inRange : graph.InRange)
    (noCycle : graph.NoPlaceholderCycle)
    : graph.SplicesInPlace graph.splice := by
  have fresh : ∀ id < graph.size, id ∈ List.range graph.size ↔ id ∉ ([] : List Nat) := by simp
  have rootInside : ∀ id ∈ [graph.root], id < graph.size := by simpa using inRange.1
  obtain ⟨entered, walked⟩ := reaches_spliceAt inRange noCycle List.nodup_range fresh rootInside
  rw [spliceAt_nil, List.append_nil] at walked
  exact ⟨entered, walked⟩

/-- The spliced graph is the only one that splicing in place ends with. -/
theorem splicesInPlace_iff {graph result : Graph} (inRange : graph.InRange)
    (noCycle : graph.NoPlaceholderCycle)
    : graph.SplicesInPlace result ↔ result = graph.splice := by
  have spliced := splicesInPlace_splice inRange noCycle
  constructor
  · exact fun other => other.unique spliced
  · rintro rfl
    exact spliced

end Dialogue.Graph
