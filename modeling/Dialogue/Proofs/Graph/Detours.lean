import Dialogue.Proofs.Graph.InPlace

/-! What splicing in place leaves of a graph. The edges of the reachable nodes that are kept, and of
the root, are expanded; nothing else changes. Paths between the nodes that are left are those that
were there before, with the detours through placeholders cut short, and there is nothing left to do
for a second run.
-/

namespace Dialogue

open Relation

/-- A path with at least one edge leads from one number to another along `next`. -/
abbrev Leads (next : Nat → List Nat) : Nat → Nat → Prop :=
  TransGen fun source target => target ∈ next source

namespace Graph

-----------------------------------------------------------------------------------------
-- Paths along expanded edges
-----------------------------------------------------------------------------------------

section Paths

variable {graph : Graph}

theorem reaches_of_mem_expand {source target : Nat} (found : target ∈ graph.expand source)
    : Reaches graph.next source target :=
  (of_mem_expandTo found).2.lift id fun _ _ passes => passes.2

theorem leads_of_mem_expandedNext {source target : Nat}
    (found : target ∈ graph.expandedNext source)
    : Leads graph.next source target := by
  obtain ⟨middle, successor, below⟩ := List.mem_flatMap.mp found
  exact .head' successor (reaches_of_mem_expand below)

/-- A path to a node that is kept can be gone along expanded edges, from one of the nodes that its
first slot expands to. By induction on the path, from its end.
-/
theorem NoPlaceholderCycle.exists_mem_expand (noCycle : graph.NoPlaceholderCycle)
    {source target : Nat} (path : Reaches graph.next source target)
    (kept : (graph.node target).isPlaceholder = false)
    : ∃ first ∈ graph.expand source, Reaches graph.expandedNext first target := by
  induction path using ReflTransGen.head_induction_on with
  | refl => exact ⟨target, by simp [expand_of_kept kept], .refl⟩
  | @head source middle successor _ ih =>
      obtain ⟨first, found, rest⟩ := ih
      cases gone : (graph.node source).isPlaceholder with
      | true =>
          rw [noCycle.expand_of_placeholder gone]
          exact ⟨first, List.mem_flatMap.mpr ⟨middle, successor, found⟩, rest⟩
      | false =>
          have expanded : first ∈ graph.expandedNext source :=
            List.mem_flatMap.mpr ⟨middle, successor, found⟩
          exact ⟨source, by simp [expand_of_kept gone], .head expanded rest⟩

/-- Expanded edges lead nowhere that the edges do not, by induction on the path. -/
theorem leads_of_leads_expandedNext {source target : Nat}
    (path : Leads graph.expandedNext source target)
    : Leads graph.next source target := by
  induction path with
  | single expanded => exact leads_of_mem_expandedNext expanded
  | tail _ expanded ih => exact ih.trans (leads_of_mem_expandedNext expanded)

/-- Expanded edges lead to the same nodes that are kept as the edges do. -/
theorem NoPlaceholderCycle.leads_expandedNext_iff (noCycle : graph.NoPlaceholderCycle)
    {source target : Nat} (kept : (graph.node target).isPlaceholder = false)
    : Leads graph.expandedNext source target ↔ Leads graph.next source target := by
  refine ⟨leads_of_leads_expandedNext, fun path => ?_⟩
  obtain ⟨middle, successor, rest⟩ := TransGen.head'_iff.mp path
  obtain ⟨first, found, onward⟩ := noCycle.exists_mem_expand rest kept
  exact .head' (List.mem_flatMap.mpr ⟨middle, successor, found⟩) onward

/-- The spliced slots are the root and the nodes that are reachable and kept. -/
theorem mem_spliced_iff (inRange : graph.InRange) (noCycle : graph.NoPlaceholderCycle) {id : Nat}
    : id ∈ graph.spliced
      ↔ id = graph.root
        ∨ (Reaches graph.next graph.root id ∧ (graph.node id).isPlaceholder = false) := by
  have bounded : ∀ source, ∀ target ∈ graph.expandedNext source, target < graph.size :=
    fun source target found => lt_size_of_not_placeholder (kept_of_mem_expandedNext found)
  rw [spliced, mem_preorder_iff inRange.1 bounded, Reaches, reflTransGen_iff_eq_or_transGen]
  constructor
  · rintro (same | path)
    · exact Or.inl same
    · obtain ⟨before, -, expanded⟩ := TransGen.tail'_iff.mp path
      exact Or.inr ⟨(leads_of_leads_expandedNext path).to_reflTransGen,
        kept_of_mem_expandedNext expanded⟩
  · rintro (same | ⟨path, kept⟩)
    · exact Or.inl same
    · rcases reflTransGen_iff_eq_or_transGen.mp path with same | path
      · exact Or.inl same
      · exact Or.inr ((noCycle.leads_expandedNext_iff kept).mpr path)

end Paths

-----------------------------------------------------------------------------------------
-- Paths of the spliced graph
-----------------------------------------------------------------------------------------

section Spliced

variable {graph : Graph}

theorem kept_of_mem_spliced (rootKept : (graph.node graph.root).isPlaceholder = false) {id : Nat}
    (entered : id ∈ graph.spliced)
    : (graph.node id).isPlaceholder = false := by
  obtain ⟨source, isWaiting, path⟩ := reaches_of_mem_enterAll entered
  obtain rfl := List.mem_singleton.mp isWaiting
  rcases path.cases_tail with rfl | ⟨before, -, expanded⟩
  · exact rootKept
  · exact kept_of_mem_expandedNext expanded

/-- From a spliced slot, the spliced graph leads where expanded edges lead. By induction on the
path, which meets spliced slots only.
-/
theorem leads_splice_iff {source target : Nat} (entered : source ∈ graph.spliced)
    : Leads graph.splice.next source target ↔ Leads graph.expandedNext source target := by
  have next_eq {id : Nat} (entered : id ∈ graph.spliced)
      : graph.splice.next id = graph.expandedNext id := by
    rw [next_splice, if_pos entered]
  have onward {id other : Nat} (entered : id ∈ graph.spliced)
      (expanded : other ∈ graph.expandedNext id)
      : other ∈ graph.spliced :=
    mem_preorder_of_successor entered expanded
      (lt_size_of_not_placeholder (kept_of_mem_expandedNext expanded))
  constructor
  · intro path
    induction path using TransGen.head_induction_on with
    | single successor => exact .single (next_eq entered ▸ successor)
    | head successor _ ih =>
        rw [next_eq entered] at successor
        exact .head successor (ih (onward entered successor))
  · intro path
    induction path using TransGen.head_induction_on with
    | single successor => exact .single (by rwa [next_eq entered])
    | head successor _ ih =>
        refine .head ?_ (ih (onward entered successor))
        rwa [next_eq entered]

/-- Between spliced slots that are kept, the spliced graph has the paths of the graph. -/
theorem NoPlaceholderCycle.leads_splice_iff (noCycle : graph.NoPlaceholderCycle)
    {source target : Nat} (entered : source ∈ graph.spliced)
    (kept : (graph.node target).isPlaceholder = false)
    : Leads graph.splice.next source target ↔ Leads graph.next source target :=
  (Graph.leads_splice_iff entered).trans (noCycle.leads_expandedNext_iff kept)

/-- Splicing a second time changes nothing: all edges are expanded already. -/
theorem NoPlaceholderCycle.splice_splice (noCycle : graph.NoPlaceholderCycle)
    : graph.splice.splice = graph.splice := by
  have expandedNext : graph.splice.expandedNext = graph.expandedNext :=
    funext fun id => noCycle.expandedNext_spliceAt id
  have spliced : graph.splice.spliced = graph.spliced := by
    rw [Graph.spliced, expandedNext, size_splice, root_splice, Graph.spliced]
  refine eq_of_slot rfl (by simp) fun id => ?_
  rw [slot_splice, spliced, expandedNext, slot_splice]
  split <;> rfl

end Spliced

-----------------------------------------------------------------------------------------
-- Main statements
-----------------------------------------------------------------------------------------

/-- What splicing in place makes of a graph: the edges of the root and of the reachable nodes that
are kept are expanded, and all else is as it was.
-/
structure SplicedTo (graph result : Graph) : Prop where
  root : result.root = graph.root
  size : result.size = graph.size
  node : ∀ id, result.node id = graph.node id
  line : ∀ id, result.line id = graph.line id
  expanded
    : ∀ id,
        id = graph.root
          ∨ (Reaches graph.next graph.root id ∧ (graph.node id).isPlaceholder = false)
        → result.next id = (graph.next id).flatMap graph.expand
  other
    : ∀ id,
        id ≠ graph.root
        → (Reaches graph.next graph.root id → (graph.node id).isPlaceholder = true)
        → result.next id = graph.next id

/-- On every graph whose edges stay inside it and that has no cycle of placeholders alone, splicing
in place comes to an end with the spliced graph and no other. There an edge to a node that is kept
stays, and an edge to a placeholder gives way to what the edges of the placeholder expand to, in
order.
-/
theorem splicesInPlace_exact {graph : Graph} (inRange : graph.InRange)
    (noCycle : graph.NoPlaceholderCycle)
    : graph.SplicesInPlace graph.splice
      ∧ (∀ result, graph.SplicesInPlace result → result = graph.splice)
      ∧ graph.SplicedTo graph.splice
      ∧ ∀ id,
          graph.expand id
          = if (graph.node id).isPlaceholder then (graph.next id).flatMap graph.expand
            else [id] := by
  have spliced {id : Nat} : id ∈ graph.spliced ↔ _ := mem_spliced_iff inRange noCycle
  have ends := splicesInPlace_splice inRange noCycle
  refine ⟨ends, fun result endsToo => endsToo.unique ends, ?_, fun id => ?_⟩
  · refine {
      root := graph.root_splice
      size := graph.size_splice
      node := graph.node_splice
      line := graph.line_splice
      expanded := fun id left => ?_
      other := fun id rootNot lost => ?_
    }
    · rw [next_splice, if_pos (spliced.mpr left), expandedNext]
    · rw [next_splice, if_neg]
      rintro entered
      rcases spliced.mp entered with same | ⟨path, kept⟩
      · exact rootNot same
      · simp [lost path] at kept
  · split
    · next gone => exact noCycle.expand_of_placeholder gone
    · next kept => exact expand_of_kept (by simpa using kept)

/-- A graph of six slots behind its start or, if that is not the root, behind a dead slot with two
successors. Two nodes lead back to themselves through placeholders, another ends in an empty slot,
and nothing leads to the last one.
-/
def detours (root : Nat) : Graph where
  slots :=
    [⟨.start, 0, [1]⟩, ⟨.dead, 1, [2, 3]⟩, ⟨.beat (.say "A" "Two"), 2, [1, 5]⟩, ⟨.dead, 3, [4]⟩,
      ⟨.beat (.say "A" "Four"), 4, [3]⟩, ⟨.empty, 0, []⟩, ⟨.beat (.say "A" "Six"), 6, [1]⟩]
  root := root

/-- Every edge out of a placeholder leads to a later slot. -/
theorem noPlaceholderCycle_detours (root : Nat) : (detours root).NoPlaceholderCycle := by
  apply noPlaceholderCycle_of_rank fun id => 7 - id
  intro source target passes
  have inside : source < 7 := lt_size_of_mem_next passes.2
  have falls
      : ∀ source < 7,
          ((detours 0).node source).isPlaceholder = true
          → ∀ target ∈ (detours 0).next source, 7 - target < 7 - source := by
    decide
  exact falls source inside passes.1 target passes.2

/-- From the dead slot as its root, splicing gives both the root and the node behind it the edges
to the two nodes that are kept, and leaves the edge of the slot that nothing leads to.
-/
theorem detours_splicesInPlace
    : (detours 1).InRange
      ∧ (detours 1).NoPlaceholderCycle
      ∧ (detours 1).SplicesInPlace (detours 1).splice
      ∧ (detours 1).splice.next 1 = [2, 4]
      ∧ (detours 1).splice.next 2 = [2, 4]
      ∧ (detours 1).splice.next 6 = [1] := by
  have inRange : (detours 1).InRange := by decide
  have noCycle := noPlaceholderCycle_detours 1
  obtain ⟨spliced, -, splicedTo, -⟩ := splicesInPlace_exact inRange noCycle
  have path : Reaches (detours 1).next 1 2 := .single (by decide)
  refine ⟨inRange, noCycle, spliced, ?_, ?_, ?_⟩
  · exact (splicedTo.expanded 1 (Or.inl rfl)).trans (by decide)
  · exact (splicedTo.expanded 2 (Or.inr ⟨path, by decide⟩)).trans (by decide)
  · refine splicedTo.other 6 (by decide) fun path => ?_
    have reached := inRange.mem_reachable_iff.mpr path
    exact absurd reached (by decide +kernel)

/-- On every graph whose edges stay inside it and that has no cycle of placeholders alone, a second
run of splicing in place changes nothing. If the root is kept, what can be reached afterwards are
the nodes that could be reached before and are kept, and the paths between them are those that
there were before.
-/
theorem splicesInPlace_final {graph : Graph} (inRange : graph.InRange)
    (noCycle : graph.NoPlaceholderCycle)
    : graph.SplicesInPlace graph.splice
      ∧ graph.splice.SplicesInPlace graph.splice
      ∧ ((graph.node graph.root).isPlaceholder = false
          → graph.splice.hasPlaceholders = false
            ∧ (∀ id,
                Reaches graph.splice.next graph.root id
                ↔ Reaches graph.next graph.root id ∧ (graph.node id).isPlaceholder = false)
            ∧ ∀ source target,
                Reaches graph.splice.next graph.root source
                → Reaches graph.splice.next graph.root target
                → (Leads graph.splice.next source target ↔ Leads graph.next source target)
                  ∧ (Reaches graph.splice.next source target
                    ↔ Reaches graph.next source target)) := by
  have again : graph.splice.SplicesInPlace graph.splice.splice :=
    splicesInPlace_splice inRange.spliceAt noCycle.spliceAt
  rw [noCycle.splice_splice] at again
  refine ⟨splicesInPlace_splice inRange noCycle, again, fun rootKept => ?_⟩
  have splicedInRange : graph.splice.InRange := inRange.spliceAt
  have entered {id : Nat} : Reaches graph.splice.next graph.root id ↔ id ∈ graph.spliced := by
    rw [← reachable_splice, splicedInRange.mem_reachable_iff, root_splice]
  refine ⟨?_, fun id => ?_, fun source target fromRoot toTarget => ?_⟩
  · simp only [hasPlaceholders, reachable_splice, node_splice, List.any_eq_false]
    exact fun id found => by simp [kept_of_mem_spliced rootKept found]
  · rw [entered, mem_spliced_iff inRange noCycle]
    constructor
    · rintro (rfl | left)
      · exact ⟨.refl, rootKept⟩
      · exact left
    · exact Or.inr
  · have kept := kept_of_mem_spliced rootKept (entered.mp toTarget)
    have same := noCycle.leads_splice_iff (entered.mp fromRoot) kept
    refine ⟨same, ?_⟩
    rw [Reaches, reflTransGen_iff_eq_or_transGen, Reaches, reflTransGen_iff_eq_or_transGen]
    exact or_congr_right same

/-- From its start, the graph with detours is spliced to one without placeholders, in which both
nodes that are kept lead back to themselves.
-/
theorem detours_final
    : (detours 0).InRange
      ∧ (detours 0).NoPlaceholderCycle
      ∧ ((detours 0).node (detours 0).root).isPlaceholder = false
      ∧ (detours 0).splice.SplicesInPlace (detours 0).splice
      ∧ (detours 0).splice.hasPlaceholders = false
      ∧ Leads (detours 0).splice.next 2 2
      ∧ Leads (detours 0).splice.next 4 4 := by
  have inRange : (detours 0).InRange := by decide
  have noCycle := noPlaceholderCycle_detours 0
  obtain ⟨-, again, left⟩ := splicesInPlace_final inRange noCycle
  obtain ⟨clean, reaches, paths⟩ := left rfl
  have toTwo : Reaches (detours 0).next 0 2 :=
    .head (by decide : 1 ∈ _) (.single (by decide))
  have toFour : Reaches (detours 0).next 0 4 :=
    .head (by decide : 1 ∈ _) (.head (by decide : 3 ∈ _) (.single (by decide)))
  have two := (reaches 2).mpr ⟨toTwo, by decide⟩
  have four := (reaches 4).mpr ⟨toFour, by decide⟩
  refine ⟨inRange, noCycle, rfl, again, clean, ?_, ?_⟩
  · exact (paths 2 2 two two).1.mpr (.head (by decide : 1 ∈ _) (.single (by decide)))
  · exact (paths 4 4 four four).1.mpr (.head (by decide : 3 ∈ _) (.single (by decide)))

end Graph

end Dialogue
