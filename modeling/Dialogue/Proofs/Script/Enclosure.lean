import Dialogue.Proofs.Graph.Overtaking
import Dialogue.Proofs.Script.Shape

/-! The slots of a choices block are entered at its choice alone, and they are left for what follows
the block. So one slot overtakes another in preorder only from branch to branch of one block.
-/

namespace Dialogue

open Dialogue.Graph

/-- In a draft, no edge leads from before `low` to between `low` and `high`, and none from there to
behind `high`.
-/
structure Graph.Brackets (draft : Graph) (low high : Nat) : Prop where
  inside : low < high
  entry : ∀ source < low, ∀ target ∈ draft.next source, target ≤ low ∨ high ≤ target
  exit : ∀ source, low ≤ source → source < high → ∀ target ∈ draft.next source, target ≤ high

-----------------------------------------------------------------------------------------
-- Blocks of an outline
-----------------------------------------------------------------------------------------

/-- The first slots of branches are slots of the branches. -/
theorem Branches.bounds_of_mem_heads (branches : Branches) {base head : Nat}
    (member : head ∈ branches.heads base)
    : base ≤ head ∧ head < base + branches.size := by
  cases branches with
  | nil => cases member
  | cons guard body rest =>
      rw [Branches.size]
      rcases List.mem_cons.mp member with rfl | later
      · have := body.size_pos
        omega
      · have := rest.bounds_of_mem_heads later
        omega

section

variable {draft : Graph}

mutual

/-- Edges of a scope lead to its own slots or to its exit, by induction on the outline. -/
theorem Scope.mem_next_cases (scope : Scope) {base exit source : Nat}
    (holds : draft.Holds base (scope.slots base exit)) (low : base ≤ source)
    (high : source < base + scope.size)
    : ∀ target ∈ draft.next source, target < base + scope.size ∨ target = exit := by
  cases scope with
  | beat shown line rest =>
      rw [Scope.size] at high ⊢
      rcases Nat.eq_or_lt_of_le low with rfl | inRest
      · have := rest.size_pos
        rw [holds.next_eq]
        exact List.forall_mem_singleton.mpr (Or.inl (by omega))
      · intro target successor
        have := rest.mem_next_cases holds.tail inRest (by omega) target successor
        omega
  | block line branches rest =>
      obtain ⟨-, heads, holdsBranches, holdsRest⟩ := holds.of_block
      rw [Scope.size] at high ⊢
      have := rest.size_pos
      intro target successor
      rcases Nat.eq_or_lt_of_le low with rfl | behind
      · rw [heads] at successor
        have := branches.bounds_of_mem_heads successor
        omega
      rcases Nat.lt_or_ge source (base + 1 + branches.size) with inBranches | inRest
      · have := branches.mem_next_cases holdsBranches behind inBranches target successor
        omega
      · have := rest.mem_next_cases holdsRest inRest (by omega) target successor
        omega
  | ended line | unfilled =>
      obtain rfl : source = base := by rw [Scope.size] at high; omega
      rw [holds.next_eq]
      exact List.forall_mem_nil _
  | dead line | runsOut line =>
      obtain rfl : source = base := by rw [Scope.size] at high; omega
      rw [holds.next_eq]
      exact List.forall_mem_singleton.mpr (Or.inr rfl)

/-- Edges of branches lead to their own slots or to their exit, by induction on the outline. -/
theorem Branches.mem_next_cases (branches : Branches) {base exit source : Nat}
    (holds : draft.Holds base (branches.slots base exit)) (low : base ≤ source)
    (high : source < base + branches.size)
    : ∀ target ∈ draft.next source, target < base + branches.size ∨ target = exit := by
  cases branches with
  | nil =>
      rw [Branches.size] at high
      omega
  | cons guard body rest =>
      obtain ⟨holdsBody, holdsRest⟩ := holds.of_branch
      rw [Branches.size] at high ⊢
      intro target successor
      rcases Nat.lt_or_ge source (base + body.size) with inBody | inRest
      · have := body.mem_next_cases holdsBody low inBody target successor
        omega
      · have := rest.mem_next_cases holdsRest inRest (by omega) target successor
        omega

end

mutual

/-- Every choice of a scope is the first slot of a block that is set apart, given that no edge leads
into the scope from before it. By induction on the outline.
-/
theorem Scope.exists_brackets (scope : Scope) {base exit id : Nat} {guards : List Guard}
    (holds : draft.Holds base (scope.slots base exit))
    (outside : ∀ source < base,
      ∀ target ∈ draft.next source, target ≤ base ∨ base + scope.size ≤ target)
    (low : base ≤ id) (high : id < base + scope.size) (found : draft.node id = .choice guards)
    : ∃ high, draft.Brackets id high := by
  cases scope with
  | beat shown line rest =>
      rw [Scope.size] at outside high
      rcases Nat.eq_or_lt_of_le low with rfl | inRest
      · rw [holds.node_eq] at found
        cases found
      · refine rest.exists_brackets holds.tail ?_ inRest (by omega) found
        intro source before target successor
        rcases Nat.lt_or_ge source base with outer | here
        · have := outside source outer target successor
          omega
        · obtain rfl : source = base := by omega
          rw [holds.next_eq] at successor
          obtain rfl := List.mem_singleton.mp successor
          exact Or.inl (Nat.le_refl _)
  | block line branches rest =>
      obtain ⟨-, heads, holdsBranches, holdsRest⟩ := holds.of_block
      rw [Scope.size] at outside high
      -- what leads out of the block leads to the slot behind it
      have within {source : Nat} (low : base ≤ source) (high : source < base + 1 + branches.size)
          : ∀ target ∈ draft.next source, target ≤ base + 1 + branches.size := by
        intro target successor
        rcases Nat.eq_or_lt_of_le low with rfl | behind
        · rw [heads] at successor
          have := branches.bounds_of_mem_heads successor
          omega
        · have := branches.mem_next_cases holdsBranches behind high target successor
          omega
      rcases Nat.eq_or_lt_of_le low with rfl | behind
      · refine ⟨base + 1 + branches.size, by omega, ?_, fun source => within⟩
        intro source before target successor
        have := outside source before target successor
        omega
      rcases Nat.lt_or_ge id (base + 1 + branches.size) with inBranches | inRest
      · refine branches.exists_brackets holdsBranches (Nat.le_refl _) ?_ behind inBranches found
        intro source before target successor
        rcases Nat.lt_or_ge source base with outer | here
        · have := outside source outer target successor
          omega
        · obtain rfl : source = base := by omega
          exact Or.inr (Or.inl (heads ▸ successor))
      · refine rest.exists_brackets holdsRest ?_ inRest (by omega) found
        intro source before target successor
        rcases Nat.lt_or_ge source base with outer | inBlock
        · have := outside source outer target successor
          omega
        · exact Or.inl (within inBlock before target successor)
  | ended line | dead line | runsOut line | unfilled =>
      obtain rfl : id = base := by rw [Scope.size] at high; omega
      rw [holds.node_eq] at found
      cases found

/-- Every choice of branches is the first slot of a block that is set apart, given that from before
the branches edges lead to their first slots only. By induction on the outline.
-/
theorem Branches.exists_brackets (branches : Branches) {base exit id : Nat} {guards : List Guard}
    (holds : draft.Holds base (branches.slots base exit)) (after : base + branches.size ≤ exit)
    (outside : ∀ source < base,
      ∀ target ∈ draft.next source,
        target ≤ base ∨ target ∈ branches.heads base ∨ base + branches.size ≤ target)
    (low : base ≤ id) (high : id < base + branches.size) (found : draft.node id = .choice guards)
    : ∃ high, draft.Brackets id high := by
  cases branches with
  | nil =>
      rw [Branches.size] at high
      omega
  | cons guard body rest =>
      obtain ⟨holdsBody, holdsRest⟩ := holds.of_branch
      rw [Branches.size] at after outside high
      rw [Branches.heads] at outside
      rcases Nat.lt_or_ge id (base + body.size) with inBody | inRest
      · refine body.exists_brackets holdsBody ?_ low inBody found
        intro source before target successor
        rcases outside source before target successor with here | head | behind
        · exact Or.inl here
        · rcases List.mem_cons.mp head with rfl | later
          · exact Or.inl (Nat.le_refl _)
          · exact Or.inr (rest.bounds_of_mem_heads later).1
        · omega
      · refine rest.exists_brackets holdsRest (by omega) ?_ inRest (by omega) found
        intro source before target successor
        rcases Nat.lt_or_ge source base with outer | inBody
        · rcases outside source outer target successor with here | head | behind
          · omega
          · rcases List.mem_cons.mp head with rfl | later
            · omega
            · exact Or.inr (Or.inl later)
          · omega
        · have := body.mem_next_cases holdsBody inBody before target successor
          omega

end

end

-----------------------------------------------------------------------------------------
-- Blocks once placeholders are spliced out
-----------------------------------------------------------------------------------------

namespace Graph

theorem Drafted.length_expand_le {draft : Graph} (drafted : draft.Drafted) (id : Nat)
    : (draft.expand id).length ≤ 1 := by
  by_cases filled : draft.node id = .empty
  · have edges : draft.next id = [] := by
      by_contra some
      obtain ⟨target, successor⟩ := List.exists_mem_of_ne_nil _ some
      have drafts := (drafted.slots id (lt_size_of_mem_next successor)).drafts
      rw [filled] at drafts
      exact some drafts.1
    rw [drafted.forward.expand_of_placeholder (by rw [filled]; rfl), edges]
    exact Nat.zero_le 1
  · exact Nat.le_of_eq (drafted.length_expand filled)

section

variable {draft : Graph} {low high : Nat} (drafted : draft.Drafted)
  (brackets : draft.Brackets low high)

include drafted brackets

/-- Placeholders do not lead into a block past its choice, by induction on the way through them. -/
theorem Brackets.outside_of_passes (kept : (draft.node low).isPlaceholder = false)
    {source target : Nat} (passes : Relation.ReflTransGen draft.PassesTo source target)
    (outside : source ≤ low ∨ high ≤ source)
    : target ≤ low ∨ high ≤ target := by
  induction passes with
  | refl => exact outside
  | @tail middle target _ passes ih =>
      have later := (drafted.forward _ _ passes.2).1
      rcases Nat.lt_trichotomy middle low with before | rfl | behind
      · exact brackets.entry middle before target passes.2
      · exact absurd passes.1 (by simp [kept])
      · omega

/-- Placeholders lead out of a block to where the slot behind it leads, by induction from there
backwards.
-/
theorem Brackets.mem_expand_cases {source target : Nat} (after : low ≤ source)
    (notBehind : source ≤ high) (found : target ∈ draft.expand source)
    : target < high ∨ target ∈ draft.expand high := by
  rcases Nat.eq_or_lt_of_le notBehind with rfl | inside
  · exact Or.inr found
  cases gone : (draft.node source).isPlaceholder with
  | false =>
      rw [expand_of_kept gone] at found
      obtain rfl := List.mem_singleton.mp found
      exact Or.inl inside
  | true =>
      rw [drafted.forward.expand_of_placeholder gone] at found
      obtain ⟨middle, successor, below⟩ := List.mem_flatMap.mp found
      have later := (drafted.forward _ _ successor).1
      have bounded := brackets.exit source after inside middle successor
      exact mem_expand_cases (by omega) bounded below
termination_by high - source

/-- A block that is set apart in a draft is so when the placeholders are spliced out. -/
theorem Brackets.encloses (kept : (draft.node low).isPlaceholder = false)
    : draft.splice.Encloses low high where
  inside := brackets.inside
  entry := by
    intro source reached before target successor
    rw [next_splice_of_reachable reached] at successor
    obtain ⟨middle, edge, found⟩ := List.mem_flatMap.mp successor
    exact brackets.outside_of_passes drafted kept (of_mem_expandTo found).2
      (brackets.entry source before middle edge)
  exit := by
    obtain ⟨exit, single⟩ : ∃ exit, ∀ target ∈ draft.expand high, target = exit := by
      match edges : draft.expand high, drafted.length_expand_le high with
      | [], _ => exact ⟨0, List.forall_mem_nil _⟩
      | [exit], _ => exact ⟨exit, List.forall_mem_singleton.mpr rfl⟩
    refine ⟨exit, fun source reached after before target successor => ?_⟩
    rw [next_splice_of_reachable reached] at successor
    obtain ⟨middle, edge, found⟩ := List.mem_flatMap.mp successor
    have later := (drafted.forward _ _ edge).1
    have bounded := brackets.exit source after before middle edge
    exact (brackets.mem_expand_cases drafted (by omega) bounded found).imp_right (single target)

end

end Graph

/-- Every choice of a layout is the first slot of a block that is set apart. -/
theorem Scope.exists_brackets_layout {scope : Scope} {id : Nat} {guards : List Guard}
    (found : scope.layout.node id = .choice guards)
    : ∃ high, scope.layout.Brackets id high := by
  have inside : id < scope.layout.size :=
    lt_size_of_node_ne_empty (by rw [found]; exact Node.noConfusion)
  have startNot : id ≠ 0 := by
    rintro rfl
    cases found
  have exitNot : id < 1 + scope.size := by
    have sizes := scope.size_layout
    by_contra behind
    have loose : scope.isLoose = true := by
      by_contra notLoose
      rw [if_neg notLoose] at sizes
      omega
    obtain rfl : id = scope.size + 1 := by
      rw [if_pos loose] at sizes
      omega
    rw [scope.node_layout_exit loose] at found
    cases found
  refine scope.exists_brackets scope.holds_layout ?_ (by omega) exitNot found
  intro source before target successor
  obtain rfl : source = 0 := by omega
  obtain rfl : target = 1 := List.mem_singleton.mp successor
  exact Or.inl (Nat.le_refl 1)

namespace Script

/-- In a compiled graph every slot with more than one successor is the choice of a block that is set
apart: other slots that can be reached have at most one.
-/
theorem Compiled.exists_encloses {graph : Graph} (compiled : Compiled graph) {choice : Nat}
    (reached : choice ∈ graph.reachable) (many : 1 < (graph.next choice).length)
    : ∃ high, graph.Encloses choice high := by
  have canonical := compiled.canonical
  obtain ⟨lines, scope, -, outlines, rfl⟩ := compiled.exists_lines
  cases found : scope.layout.splice.node choice with
  | choice guards =>
      rw [node_splice] at found
      obtain ⟨high, brackets⟩ := Scope.exists_brackets_layout found
      exact ⟨high, brackets.encloses outlines.drafted (by rw [found]; rfl)⟩
  | start | beat shown =>
      have := canonical.plain choice reached (by rw [found]; rfl)
      omega
  | ending =>
      rw [canonical.ending choice reached found] at many
      cases many
  | dead => exact absurd found (canonical.kept choice reached).1
  | empty => exact absurd found (canonical.kept choice reached).2

/-- Of two slots of a compiled graph the one that is laid out later comes first in preorder exactly
if it overtakes the other.
-/
theorem Compiled.sublist_reachable_iff {graph : Graph} (compiled : Compiled graph)
    {late early : Nat} (lt : early < late)
    : [late, early].Sublist graph.reachable ↔ graph.Overtakes late early :=
  compiled.forward.sublist_reachable_iff compiled.inRange
    (fun _ reached many => compiled.exists_encloses reached many) lt

end Script

end Dialogue
