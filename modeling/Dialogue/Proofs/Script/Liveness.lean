import Dialogue.Proofs.Script.Drafting

/-! What can be reached in the layout of an outline, told on the outline itself. The way on stops
where a block has no branch that leads out of it.
-/

namespace Dialogue

open Dialogue.Graph

mutual

/-- Whether there is a way through a scope to what follows it. -/
def Scope.completes : Scope → Bool
  | .beat _ _ rest => rest.completes
  | .block _ branches rest => branches.complete && rest.completes
  | .ended _ => false
  | .dead _ | .runsOut _ | .unfilled => true

/-- Whether there is a way through one of the branches. -/
def Branches.complete : Branches → Bool
  | .nil => false
  | .cons _ body rest => body.completes || rest.complete

end

mutual

/-- The slots of a scope that are kept and that there is a way to from its start. -/
def Scope.live (base : Nat) : Scope → List Nat
  | .beat _ _ rest => base :: rest.live (base + 1)
  | .block _ branches rest =>
      base :: (branches.live (base + 1)
        ++ if branches.complete then rest.live (base + 1 + branches.size) else [])
  | .ended _ => [base]
  | .dead _ | .runsOut _ | .unfilled => []

/-- The slots of branches that are kept and that there is a way to from the start of their branch.
-/
def Branches.live (base : Nat) : Branches → List Nat
  | .nil => []
  | .cons _ body rest => body.live base ++ rest.live (base + body.size)

end

mutual

/-- The live slots of a scope are slots of the scope, by induction on the outline. -/
theorem Scope.bounds_of_live (scope : Scope) {base id : Nat} (live : id ∈ scope.live base)
    : base ≤ id ∧ id < base + scope.size := by
  cases scope with
  | beat shown line rest =>
      rw [Scope.size]
      rcases List.mem_cons.mp live with rfl | inRest
      · omega
      · have := rest.bounds_of_live inRest
        omega
  | block line branches rest =>
      rw [Scope.size]
      rcases List.mem_cons.mp live with rfl | later
      · omega
      rcases List.mem_append.mp later with inBranches | behind
      · have := branches.bounds_of_live inBranches
        omega
      · split at behind
        · have := rest.bounds_of_live behind
          omega
        · exact absurd behind List.not_mem_nil
  | ended line =>
      obtain rfl := List.mem_singleton.mp live
      exact ⟨Nat.le_refl _, Nat.lt_succ_self _⟩
  | dead line | runsOut line | unfilled => exact absurd live List.not_mem_nil

theorem Branches.bounds_of_live (branches : Branches) {base id : Nat}
    (live : id ∈ branches.live base)
    : base ≤ id ∧ id < base + branches.size := by
  cases branches with
  | nil => exact absurd live List.not_mem_nil
  | cons guard body rest =>
      rw [Branches.size]
      rcases List.mem_append.mp live with inBody | inRest
      · have := body.bounds_of_live inBody
        omega
      · have := rest.bounds_of_live inRest
        omega

end

-----------------------------------------------------------------------------------------
-- Live slots lead to live slots
-----------------------------------------------------------------------------------------

section

variable {draft : Graph} {base exit source target : Nat}

/-- What an edge to a scope leads to is live in the scope, unless the scope goes on at its exit. By
cases on its first part.
-/
theorem Scope.live_of_mem_expand (drafted : draft.Drafted) {scope : Scope}
    (holds : draft.Holds base (scope.slots base exit)) (member : target ∈ draft.expand base)
    : target ∈ scope.live base ∨ (scope.completes = true ∧ target ∈ draft.expand exit) := by
  cases scope with
  | beat shown line rest =>
      rw [expand_of_kept (by rw [holds.node_eq]; rfl)] at member
      obtain rfl := List.mem_singleton.mp member
      exact Or.inl List.mem_cons_self
  | block line branches rest =>
      rw [expand_of_kept (by rw [holds.of_block.1]; rfl)] at member
      obtain rfl := List.mem_singleton.mp member
      exact Or.inl List.mem_cons_self
  | ended line =>
      rw [expand_of_kept (by rw [holds.node_eq]; rfl)] at member
      exact Or.inl member
  | dead line | runsOut line =>
      rw [Graph.Holds.expand_of_dead drafted holds] at member
      exact Or.inr ⟨rfl, member⟩
  | unfilled =>
      rw [drafted.expand_of_empty holds.lt_size holds.node_eq] at member
      exact absurd member List.not_mem_nil

theorem Branches.live_of_mem_heads (drafted : draft.Drafted) {branches : Branches} {base exit : Nat}
    (holds : draft.Holds base (branches.slots base exit))
    (member : target ∈ (branches.heads base).flatMap draft.expand)
    : target ∈ branches.live base ∨ (branches.complete = true ∧ target ∈ draft.expand exit) := by
  cases branches with
  | nil => exact absurd member List.not_mem_nil
  | cons guard body rest =>
      obtain ⟨holdsBody, holdsRest⟩ := holds.of_branch
      rw [heads, List.flatMap_cons] at member
      rw [live, complete, List.mem_append, Bool.or_eq_true]
      rcases List.mem_append.mp member with inBody | inRest
      · have := body.live_of_mem_expand drafted holdsBody inBody
        tauto
      · have := live_of_mem_heads drafted holdsRest inRest
        tauto

mutual

/-- What the edges of a live slot lead to is live, unless the scope goes on there at its exit. By
induction on the outline.
-/
theorem Scope.live_of_mem_expandedNext (drafted : draft.Drafted) (scope : Scope) {base exit : Nat}
    (holds : draft.Holds base (scope.slots base exit)) (live : source ∈ scope.live base)
    (member : target ∈ draft.expandedNext source)
    : target ∈ scope.live base ∨ (scope.completes = true ∧ target ∈ draft.expand exit) := by
  cases scope with
  | beat shown line rest =>
      rw [Scope.live, Scope.completes, List.mem_cons]
      rcases List.mem_cons.mp live with rfl | inRest
      · rw [expandedNext, holds.next_eq, List.flatMap_singleton] at member
        exact (rest.live_of_mem_expand drafted holds.tail member).imp_left Or.inr
      · exact (rest.live_of_mem_expandedNext drafted holds.tail inRest member).imp_left Or.inr
  | block line branches rest =>
      obtain ⟨-, edges, holdsBranches, holdsRest⟩ := holds.of_block
      rw [Scope.live, Scope.completes, Bool.and_eq_true, List.mem_cons, List.mem_append]
      -- what leads out of a branch leads to what follows the block
      have onward
          : target ∈ branches.live (base + 1)
              ∨ (branches.complete = true ∧ target ∈ draft.expand (base + 1 + branches.size))
            → (target = base
                ∨ target ∈ branches.live (base + 1)
                ∨ target ∈ if branches.complete then rest.live (base + 1 + branches.size) else [])
              ∨ ((branches.complete = true ∧ rest.completes = true)
                ∧ target ∈ draft.expand exit) := by
        rintro (inside | ⟨complete, behind⟩)
        · exact Or.inl (Or.inr (Or.inl inside))
        · rw [if_pos complete]
          have := rest.live_of_mem_expand drafted holdsRest behind
          tauto
      rcases List.mem_cons.mp live with rfl | later
      · rw [expandedNext, edges] at member
        exact onward (Branches.live_of_mem_heads drafted holdsBranches member)
      rcases List.mem_append.mp later with inBranches | behind
      · exact onward
          (branches.live_of_mem_expandedNext drafted holdsBranches inBranches member)
      · split at behind
        · next complete =>
            have := rest.live_of_mem_expandedNext drafted holdsRest behind member
            rw [if_pos complete]
            tauto
        · exact absurd behind List.not_mem_nil
  | ended line =>
      obtain rfl := List.mem_singleton.mp live
      rw [expandedNext, holds.next_eq] at member
      exact absurd member List.not_mem_nil
  | dead line | runsOut line | unfilled => exact absurd live List.not_mem_nil

theorem Branches.live_of_mem_expandedNext (drafted : draft.Drafted) (branches : Branches)
    {base exit : Nat} (holds : draft.Holds base (branches.slots base exit))
    (live : source ∈ branches.live base) (member : target ∈ draft.expandedNext source)
    : target ∈ branches.live base ∨ (branches.complete = true ∧ target ∈ draft.expand exit) := by
  cases branches with
  | nil => exact absurd live List.not_mem_nil
  | cons guard body rest =>
      obtain ⟨holdsBody, holdsRest⟩ := holds.of_branch
      rw [Branches.live, Branches.complete, List.mem_append, Bool.or_eq_true]
      rcases List.mem_append.mp live with inBody | inRest
      · have := body.live_of_mem_expandedNext drafted holdsBody inBody member
        tauto
      · have := rest.live_of_mem_expandedNext drafted holdsRest inRest member
        tauto

end

-----------------------------------------------------------------------------------------
-- Live slots are reached
-----------------------------------------------------------------------------------------

mutual

/-- If a scope is reached, so are its live slots, and so is its exit if there is a way through it.
By induction on the outline.
-/
theorem Scope.reachable_of_live (drafted : draft.Drafted) (scope : Scope) {base exit : Nat}
    (holds : draft.Holds base (scope.slots base exit)) (proper : scope.Proper)
    (unfilled : scope.isFilled = false → draft.expand exit = [])
    (entered : ∀ id ∈ draft.expand base, id ∈ draft.splice.reachable)
    : (∀ id ∈ scope.live base, id ∈ draft.splice.reachable)
      ∧ (scope.completes = true → ∀ id ∈ draft.expand exit, id ∈ draft.splice.reachable) := by
  cases scope with
  | beat shown line rest =>
      rw [expand_of_kept (by rw [holds.node_eq]; rfl)] at entered
      have reached := entered base List.mem_cons_self
      have edges : draft.expandedNext base = draft.expand (base + 1) := by
        rw [expandedNext, holds.next_eq, List.flatMap_singleton]
      obtain ⟨inRest, behind⟩ := rest.reachable_of_live drafted holds.tail proper.2 unfilled
        fun id member => drafted.reachable_of_mem_expandedNext reached (edges ▸ member)
      exact ⟨List.forall_mem_cons.mpr ⟨reached, inRest⟩, behind⟩
  | block line branches rest =>
      obtain ⟨-, properBranches, -, properRest⟩ := proper
      obtain ⟨node, heads, holdsBranches, holdsRest⟩ := holds.of_block
      rw [expand_of_kept (by rw [node]; rfl)] at entered
      have reached := entered base List.mem_cons_self
      have edges : draft.expandedNext base = (branches.heads (base + 1)).flatMap draft.expand := by
        rw [expandedNext, heads]
      obtain ⟨inBranches, onward⟩ := branches.reachable_of_live drafted holdsBranches properBranches
        fun id member => drafted.reachable_of_mem_expandedNext reached (edges ▸ member)
      rw [Scope.live, Scope.completes, List.forall_mem_cons, List.forall_mem_append]
      cases complete : branches.complete with
      | false => exact ⟨⟨reached, inBranches, List.forall_mem_nil _⟩, Bool.noConfusion⟩
      | true =>
          obtain ⟨inRest, behind⟩ :=
            rest.reachable_of_live drafted holdsRest properRest unfilled (onward complete)
          exact ⟨⟨reached, inBranches, inRest⟩, behind⟩
  | ended line =>
      rw [expand_of_kept (by rw [holds.node_eq]; rfl)] at entered
      exact ⟨entered, Bool.noConfusion⟩
  | dead line | runsOut line =>
      rw [Graph.Holds.expand_of_dead drafted holds] at entered
      exact ⟨List.forall_mem_nil _, fun _ => entered⟩
  | unfilled =>
      rw [unfilled rfl]
      exact ⟨List.forall_mem_nil _, fun _ => List.forall_mem_nil _⟩

theorem Branches.reachable_of_live (drafted : draft.Drafted) (branches : Branches) {base exit : Nat}
    (holds : draft.Holds base (branches.slots base exit)) (proper : branches.Proper)
    (entered : ∀ id ∈ (branches.heads base).flatMap draft.expand, id ∈ draft.splice.reachable)
    : (∀ id ∈ branches.live base, id ∈ draft.splice.reachable)
      ∧ (branches.complete = true → ∀ id ∈ draft.expand exit, id ∈ draft.splice.reachable) := by
  cases branches with
  | nil => exact ⟨List.forall_mem_nil _, Bool.noConfusion⟩
  | cons guard body rest =>
      obtain ⟨filled, properBody, properRest⟩ := proper
      obtain ⟨holdsBody, holdsRest⟩ := holds.of_branch
      rw [Branches.heads, List.flatMap_cons, List.forall_mem_append] at entered
      obtain ⟨inBody, onward⟩ :=
        body.reachable_of_live drafted holdsBody properBody (by simp [filled]) entered.1
      obtain ⟨inRest, behind⟩ := rest.reachable_of_live drafted holdsRest properRest entered.2
      rw [Branches.live, Branches.complete, List.forall_mem_append, Bool.or_eq_true]
      exact ⟨⟨inBody, inRest⟩, fun complete => complete.elim onward behind⟩

end

end

-----------------------------------------------------------------------------------------
-- Whole outlines
-----------------------------------------------------------------------------------------

/-- Behind a whole scope, an edge leads to the ending of a loose end, or else nowhere. -/
theorem Scope.expand_layout_exit {scope : Scope} (proper : scope.Proper)
    : scope.layout.expand (scope.size + 1) = if scope.isLoose then [scope.size + 1] else [] := by
  cases loose : scope.isLoose with
  | true => exact expand_of_kept (by rw [scope.node_layout_exit loose]; rfl)
  | false =>
      have sizes := scope.size_layout
      rw [loose] at sizes
      have outside : scope.layout.slot (scope.size + 1) = ⟨.empty, 0, []⟩ :=
        slot_of_size_le (Nat.le_of_eq sizes)
      have nowhere : scope.layout.next (scope.size + 1) = [] := by rw [next, outside]
      rw [(drafted_layout proper).forward.expand_of_placeholder (by rw [node, outside]; rfl),
        nowhere]
      rfl

theorem Scope.expand_layout_of_unfilled {scope : Scope} (proper : scope.Proper)
    (unfilled : scope.isFilled = false)
    : scope.layout.expand (scope.size + 1) = [] := by
  rw [expand_layout_exit proper, if_neg]
  intro loose
  rw [isFilled_of_isLoose loose] at unfilled
  exact Bool.noConfusion unfilled

/-- Once a proper outline is laid out and spliced, its start and its live slots are reachable, and
behind a way through it also what the loose end goes on to; no other slot is.
-/
theorem Scope.mem_reachable_layout_iff {scope : Scope} (proper : scope.Proper) {id : Nat}
    : id ∈ scope.layout.splice.reachable
      ↔ id = 0
        ∨ id ∈ scope.live 1
        ∨ (scope.completes = true ∧ id ∈ scope.layout.expand (scope.size + 1)) := by
  have drafted := drafted_layout proper
  have holds := scope.holds_layout
  have inside : scope.layout.splice.root < scope.layout.splice.size := by
    rw [size_splice]
    exact drafted.root_lt_size
  have edges : scope.layout.expandedNext 0 = scope.layout.expand 1 := List.flatMap_singleton _ _
  constructor
  · intro reached
    -- by induction on a path from the root: no edge leads out of these slots
    have path := (drafted.forward.splice.mem_reachable_iff inside).mp reached
    induction path with
    | refl => exact Or.inl rfl
    | @tail source target before successor ih =>
        have sourceReached := (drafted.forward.splice.mem_reachable_iff inside).mpr before
        rw [next_splice_of_reachable sourceReached] at successor
        refine Or.inr ?_
        rcases ih sourceReached with rfl | live | ⟨-, behind⟩
        · rw [edges] at successor
          exact scope.live_of_mem_expand drafted holds successor
        · exact scope.live_of_mem_expandedNext drafted holds live successor
        · rw [expand_layout_exit proper] at behind
          split at behind
          · next loose =>
              obtain rfl := List.mem_singleton.mp behind
              have nowhere : scope.layout.next (scope.size + 1) = [] := by
                rw [next, scope.slot_layout_exit loose]
              rw [expandedNext, nowhere] at successor
              exact absurd successor List.not_mem_nil
          · exact absurd behind List.not_mem_nil
  · have root : 0 ∈ scope.layout.splice.reachable := root_mem_preorder inside
    obtain ⟨live, behind⟩ := scope.reachable_of_live drafted holds proper
      (expand_layout_of_unfilled proper)
      fun id member => drafted.reachable_of_mem_expandedNext root (edges ▸ member)
    rintro (rfl | member | ⟨complete, member⟩)
    · exact root
    · exact live id member
    · exact behind complete id member

-----------------------------------------------------------------------------------------
-- Lost slots
-----------------------------------------------------------------------------------------

mutual

/-- The lines of what is kept of a scope although there is no way to it: of what comes behind a
block that no branch leads out of. If `cut`, such a block comes before the whole scope.
-/
def Scope.lost (cut : Bool) : Scope → List Nat
  | .beat _ line rest => (if cut then [line] else []) ++ rest.lost cut
  | .block line branches rest =>
      (if cut then [line] else []) ++ (branches.lost cut ++ rest.lost (cut || !branches.complete))
  | .ended line => if cut then [line] else []
  | .dead _ | .runsOut _ | .unfilled => []

/-- The lines of what is kept of branches although there is no way to it. -/
def Branches.lost (cut : Bool) : Branches → List Nat
  | .nil => []
  | .cons _ body rest => body.lost cut ++ rest.lost cut

end

namespace Graph

/-- The slots of a range that are kept although they are not among the reached ones. -/
def lostBetween (graph : Graph) (reached : List Nat) (base size : Nat) : List Nat :=
  (List.range' base size).filter fun id =>
    !reached.contains id && !(graph.node id).isPlaceholder

variable (graph : Graph) (reached : List Nat)

theorem lostBetween_add (base size more : Nat)
    : graph.lostBetween reached base (size + more)
      = graph.lostBetween reached base size
        ++ graph.lostBetween reached (base + size) more := by
  rw [lostBetween, ← List.range'_append_1, List.filter_append]
  rfl

variable {graph reached} {base : Nat} {slot : Slot} {slots : List Slot}

theorem Holds.lines_lostBetween (holds : graph.Holds base (slot :: slots))
    (kept : slot.node.isPlaceholder = false) {cut : Bool} (isCut : base ∈ reached ↔ cut = false)
    : (graph.lostBetween reached base 1).map graph.line = if cut then [slot.line] else [] := by
  cases cut <;> simp_all [lostBetween, holds.node_eq, holds.line_eq]

theorem Holds.lostBetween_eq_nil (holds : graph.Holds base (slot :: slots))
    (gone : slot.node.isPlaceholder = true)
    : graph.lostBetween reached base 1 = [] := by
  simp [lostBetween, holds.node_eq, gone]

end Graph

section

variable {graph : Graph} {reached : List Nat}

mutual

/-- Where the reached slots of a scope are its live ones, or none if the scope is cut off, the lines
of the others that are kept are the lost ones. By induction on the outline.
-/
theorem Scope.lines_lostBetween (scope : Scope) {cut : Bool} {base exit : Nat}
    (holds : graph.Holds base (scope.slots base exit))
    (known : ∀ id,
      base ≤ id
      → id < base + scope.size
      → (id ∈ reached ↔ cut = false ∧ id ∈ scope.live base))
    : (graph.lostBetween reached base scope.size).map graph.line = scope.lost cut := by
  cases scope with
  | beat shown line rest =>
      rw [Scope.size, Nat.add_comm] at known ⊢
      have here : base ∈ reached ↔ cut = false := by
        rw [known base (Nat.le_refl _) (by omega)]
        exact and_iff_left List.mem_cons_self
      have inRest := rest.lines_lostBetween holds.tail fun id low high => by
        have different : id ≠ base := by omega
        rw [known id (by omega) (by omega), Scope.live, List.mem_cons, or_iff_right different]
      rw [lostBetween_add, List.map_append, holds.lines_lostBetween rfl here, inRest, Scope.lost]
  | block line branches rest =>
      have size : (Scope.block line branches rest).size = 1 + (branches.size + rest.size) := by
        rw [Scope.size, Nat.add_comm]
      rw [size] at known ⊢
      obtain ⟨-, -, holdsBranches, holdsRest⟩ := holds.of_block
      have here : base ∈ reached ↔ cut = false := by
        rw [known base (Nat.le_refl _) (by omega)]
        exact and_iff_left List.mem_cons_self
      have inBranches := branches.lines_lostBetween holdsBranches fun id low high => by
        have different : id ≠ base := by omega
        have before
            : id ∉ if branches.complete then rest.live (base + 1 + branches.size) else [] := by
          intro behind
          split at behind
          · have := rest.bounds_of_live behind
            omega
          · exact List.not_mem_nil behind
        rw [known id (by omega) (by omega), Scope.live, List.mem_cons, or_iff_right different,
          List.mem_append, or_iff_left before]
      have inRest : (graph.lostBetween reached (base + 1 + branches.size) rest.size).map graph.line
          = rest.lost (cut || !branches.complete) := by
        refine rest.lines_lostBetween holdsRest fun id low high => ?_
        have different : id ≠ base := by omega
        have after : id ∉ branches.live (base + 1) := by
          intro inside
          have := branches.bounds_of_live inside
          omega
        rw [known id (by omega) (by omega), Scope.live, List.mem_cons, or_iff_right different,
          List.mem_append, or_iff_right after]
        cases branches.complete <;> simp
      rw [Scope.slots, List.cons_append] at holds
      rw [lostBetween_add, lostBetween_add, List.map_append, List.map_append,
        holds.lines_lostBetween rfl here, inBranches, inRest, Scope.lost]
  | ended line =>
      refine holds.lines_lostBetween rfl ?_
      rw [known base (Nat.le_refl _) (Nat.lt_succ_self _)]
      exact and_iff_left List.mem_cons_self
  | dead line | runsOut line | unfilled =>
      rw [Scope.size, holds.lostBetween_eq_nil rfl]
      rfl

theorem Branches.lines_lostBetween (branches : Branches) {cut : Bool} {base exit : Nat}
    (holds : graph.Holds base (branches.slots base exit))
    (known : ∀ id,
      base ≤ id
      → id < base + branches.size
      → (id ∈ reached ↔ cut = false ∧ id ∈ branches.live base))
    : (graph.lostBetween reached base branches.size).map graph.line = branches.lost cut := by
  cases branches with
  | nil => rfl
  | cons guard body rest =>
      rw [Branches.size] at known ⊢
      obtain ⟨holdsBody, holdsRest⟩ := holds.of_branch
      have inBody := body.lines_lostBetween holdsBody fun id low high => by
        have before : id ∉ rest.live (base + body.size) := by
          intro behind
          have := rest.bounds_of_live behind
          omega
        rw [known id low (by omega), Branches.live, List.mem_append, or_iff_left before]
      have inRest := rest.lines_lostBetween holdsRest fun id low high => by
        have after : id ∉ body.live base := by
          intro inside
          have := body.bounds_of_live inside
          omega
        rw [known id (by omega) (by omega), Branches.live, List.mem_append, or_iff_right after]
      rw [lostBetween_add, List.map_append, inBody, inRest, Branches.lost]

end

end

/-- Once a proper outline is laid out and spliced, what is kept of it and cannot be reached comes
from its lost lines.
-/
theorem Scope.lines_lostBetween_layout {scope : Scope} (proper : scope.Proper)
    : (scope.layout.splice.lostBetween scope.layout.splice.reachable 1 scope.size).map
        scope.layout.splice.line
      = scope.lost false := by
  have asDrafted : scope.layout.splice.lostBetween scope.layout.splice.reachable 1 scope.size
      = scope.layout.lostBetween scope.layout.splice.reachable 1 scope.size := by
    simp only [lostBetween, node_splice]
  rw [asDrafted, List.map_congr_left fun id _ => Graph.line_splice scope.layout id]
  refine scope.lines_lostBetween scope.holds_layout fun id low high => ?_
  rw [mem_reachable_layout_iff proper, expand_layout_exit proper]
  have startNot : id ≠ 0 := by omega
  have exitNot : id ∉ if scope.isLoose then [scope.size + 1] else [] := by
    split
    · rw [List.mem_singleton]
      omega
    · exact List.not_mem_nil
  tauto

end Dialogue
