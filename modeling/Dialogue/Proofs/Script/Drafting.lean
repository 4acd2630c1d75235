import Dialogue.Proofs.Graph.Draft
import Dialogue.Script.Layout

/-! Laying out a proper outline gives a draft. A part of an outline is followed to the place where
the graph holds its slots, and every slot is looked at there.
-/

namespace Dialogue

/-- The graph holds these slots, the first of them at `base`. -/
def Graph.Holds (graph : Graph) (base : Nat) (slots : List Slot) : Prop :=
  ∀ index slot, slots[index]? = some slot → graph.slots[base + index]? = some slot

namespace Graph.Holds

variable {graph : Graph} {base : Nat} {slot : Slot} {slots more : List Slot}

theorem head (holds : graph.Holds base (slot :: slots)) : graph.slots[base]? = some slot :=
  holds 0 slot rfl

theorem tail (holds : graph.Holds base (slot :: slots)) : graph.Holds (base + 1) slots := by
  intro index found inside
  rw [Nat.add_assoc, Nat.add_comm 1]
  exact holds (index + 1) found inside

theorem left (holds : graph.Holds base (slots ++ more)) : graph.Holds base slots := by
  intro index found inside
  refine holds index found ?_
  rw [List.getElem?_append_left (List.getElem?_eq_some_iff.mp inside).1]
  exact inside

theorem right (holds : graph.Holds base (slots ++ more))
    : graph.Holds (base + slots.length) more := by
  intro index found inside
  rw [Nat.add_assoc]
  refine holds (slots.length + index) found ?_
  rw [List.getElem?_append_right (Nat.le_add_right _ _), Nat.add_sub_cancel_left]
  exact inside

theorem slot_eq (holds : graph.Holds base (slot :: slots)) : graph.slot base = slot :=
  slot_of_getElem? holds.head

theorem node_eq (holds : graph.Holds base (slot :: slots)) : graph.node base = slot.node := by
  rw [node, holds.slot_eq]

theorem next_eq (holds : graph.Holds base (slot :: slots)) : graph.next base = slot.next := by
  rw [next, holds.slot_eq]

theorem line_eq (holds : graph.Holds base (slot :: slots)) : graph.line base = slot.line := by
  rw [line, holds.slot_eq]

theorem lt_size (holds : graph.Holds base (slot :: slots)) : base < graph.size :=
  lt_size_of_getElem? holds.head

end Graph.Holds

mutual

@[simp] theorem Scope.length_slots (scope : Scope) (base exit : Nat)
    : (scope.slots base exit).length = scope.size := by
  cases scope with
  | beat shown line rest =>
      rw [Scope.slots, Scope.size, List.length_cons, rest.length_slots]
  | block line branches rest =>
      rw [Scope.slots, Scope.size, List.cons_append, List.length_cons, List.length_append,
        branches.length_slots, rest.length_slots]
  | ended line | dead line | runsOut line | unfilled => rfl

@[simp] theorem Branches.length_slots (branches : Branches) (base exit : Nat)
    : (branches.slots base exit).length = branches.size := by
  cases branches with
  | nil => rfl
  | cons guard body rest =>
      rw [Branches.slots, Branches.size, List.length_append, body.length_slots, rest.length_slots]

end

/-- Where a block is laid out, its branches come right after it, and what follows it comes after
them.
-/
theorem Graph.Holds.of_block {graph : Graph} {line base exit : Nat} {branches : Branches}
    {rest : Scope} (holds : graph.Holds base ((Scope.block line branches rest).slots base exit))
    : graph.node base = .choice branches.guards
      ∧ graph.next base = branches.heads (base + 1)
      ∧ graph.Holds (base + 1) (branches.slots (base + 1) (base + 1 + branches.size))
      ∧ graph.Holds (base + 1 + branches.size) (rest.slots (base + 1 + branches.size) exit) := by
  rw [Scope.slots, List.cons_append] at holds
  have behind := holds.tail.right
  rw [Branches.length_slots] at behind
  exact ⟨holds.node_eq, holds.next_eq, holds.tail.left, behind⟩

/-- Where branches are laid out, the body of the first one comes first. -/
theorem Graph.Holds.of_branch {graph : Graph} {guard : Guard} {base exit : Nat} {body : Scope}
    {rest : Branches} (holds : graph.Holds base ((Branches.cons guard body rest).slots base exit))
    : graph.Holds base (body.slots base exit)
      ∧ graph.Holds (base + body.size) (rest.slots (base + body.size) exit) := by
  rw [Branches.slots] at holds
  have behind := holds.right
  rw [Scope.length_slots] at behind
  exact ⟨holds.left, behind⟩

/-- An edge to a dead slot leads where an edge to its exit leads. -/
theorem Graph.Holds.expand_of_dead {draft : Graph} (drafted : draft.Drafted) {line base exit : Nat}
    {slots : List Slot} (holds : draft.Holds base (⟨.dead, line, [exit]⟩ :: slots))
    : draft.expand base = draft.expand exit := by
  have gone : (draft.node base).isPlaceholder = true := by rw [holds.node_eq]; rfl
  rw [drafted.forward.expand_of_placeholder gone, holds.next_eq, List.flatMap_singleton]

theorem Scope.size_pos (scope : Scope) : 0 < scope.size := by
  cases scope <;> simp [size]

/-- Whether something closes a scope, be it only the end of its lines. -/
def Scope.isFilled : Scope → Bool
  | .beat _ _ rest => rest.isFilled
  | .block _ _ rest => rest.isFilled
  | .ended _ | .dead _ | .runsOut _ => true
  | .unfilled => false

mutual

/-- In a proper outline options offer choices, blocks have branches, and wherever a branch can go on
after its block there is something to go on with.
-/
def Scope.Proper : Scope → Prop
  | .beat shown _ rest => shown.Offers ∧ rest.Proper
  | .block _ branches rest =>
      branches.guards ≠ []
      ∧ branches.Proper
      ∧ (branches.anyLoose = true → rest ≠ .unfilled)
      ∧ rest.Proper
  | .ended _ | .dead _ | .runsOut _ | .unfilled => True

/-- The bodies of branches are proper and closed. -/
def Branches.Proper : Branches → Prop
  | .nil => True
  | .cons _ body rest => body.isFilled = true ∧ body.Proper ∧ rest.Proper

end

theorem Scope.ne_unfilled_of_isFilled {scope : Scope} (filled : scope.isFilled = true)
    : scope ≠ .unfilled := by
  rintro rfl
  exact Bool.noConfusion filled

/-- What a dialogue can go on from is closed, by induction on the outline. -/
theorem Scope.isFilled_of_isLoose {scope : Scope} (loose : scope.isLoose = true)
    : scope.isFilled = true := by
  cases scope with
  | beat shown line rest => exact rest.isFilled_of_isLoose loose
  | block line branches rest => exact rest.isFilled_of_isLoose loose
  | ended line | dead line | runsOut line => rfl
  | unfilled => exact Bool.noConfusion loose

/-- The end of the lines is either kept or left empty, and the rest of the outline is unchanged:
what was proper and closed stays proper, by induction on it.
-/
theorem Scope.proper_settle (scope : Scope) (waiting : Bool) (filled : scope.isFilled = true)
    (proper : scope.Proper)
    : (scope.settle waiting).Proper ∧ (waiting = true → scope.settle waiting ≠ .unfilled) := by
  cases scope with
  | beat shown line rest =>
      obtain ⟨offers, properRest⟩ := proper
      exact ⟨⟨offers, (rest.proper_settle false filled properRest).1⟩, fun _ => Scope.noConfusion⟩
  | block line branches rest =>
      obtain ⟨guarded, properBranches, -, properRest⟩ := proper
      obtain ⟨settled, continued⟩ := rest.proper_settle branches.anyLoose filled properRest
      exact ⟨⟨guarded, properBranches, continued, settled⟩, fun _ => Scope.noConfusion⟩
  | ended line | dead line => exact ⟨trivial, fun _ => Scope.noConfusion⟩
  | runsOut line =>
      rw [settle]
      cases waiting with
      | true => exact ⟨trivial, fun _ => Scope.noConfusion⟩
      | false => exact ⟨trivial, fun no => Bool.noConfusion no⟩
  | unfilled => exact Bool.noConfusion filled

theorem Branches.length_heads (branches : Branches) (base : Nat)
    : (branches.heads base).length = branches.guards.length := by
  cases branches with
  | nil => rfl
  | cons guard body rest =>
      rw [heads, guards, List.length_cons, List.length_cons, rest.length_heads]

/-- The first slot of a scope is empty only if there is nothing in the scope. -/
theorem Scope.node_ne_empty {graph : Graph} {scope : Scope} {base exit : Nat}
    (holds : graph.Holds base (scope.slots base exit)) (filled : scope ≠ .unfilled)
    : graph.node base ≠ .empty := by
  cases scope with
  | beat shown line rest => rw [holds.node_eq]; exact Node.noConfusion
  | block line branches rest =>
      rw [holds.of_block.1]
      exact Node.noConfusion
  | ended line | dead line | runsOut line => rw [holds.node_eq]; exact Node.noConfusion
  | unfilled => exact absurd rfl filled

/-- The first slots of closed branches are not empty and lie among the slots of the branches, by
induction on the branches.
-/
theorem Branches.of_mem_heads {graph : Graph} {branches : Branches} {base exit head : Nat}
    (holds : graph.Holds base (branches.slots base exit)) (proper : branches.Proper)
    (member : head ∈ branches.heads base)
    : base ≤ head ∧ graph.node head ≠ .empty := by
  cases branches with
  | nil => exact absurd member List.not_mem_nil
  | cons guard body rest =>
      obtain ⟨filled, -, properRest⟩ := proper
      obtain ⟨holdsBody, holdsRest⟩ := holds.of_branch
      rcases List.mem_cons.mp member with rfl | later
      · exact ⟨Nat.le_refl _, body.node_ne_empty holdsBody (Scope.ne_unfilled_of_isFilled filled)⟩
      · obtain ⟨after, headFilled⟩ := of_mem_heads holdsRest properRest later
        exact ⟨by omega, headFilled⟩

-----------------------------------------------------------------------------------------
-- Every slot of an outline
-----------------------------------------------------------------------------------------

namespace Graph

variable {graph : Graph} {id line : Nat} {rest : List Slot}

theorem draftedAt_of_holds {slot : Slot} (holds : graph.Holds id (slot :: rest))
    (forward : ∀ target ∈ slot.next, id < target ∧ target < graph.size)
    (drafts : graph.Drafts id slot.node)
    : graph.DraftedAt id :=
  ⟨by rw [holds.next_eq]; exact forward, by rw [holds.node_eq]; exact drafts⟩

theorem draftedAt_beat {shown : Beat}
    (holds : graph.Holds id (⟨.beat shown, line, [id + 1]⟩ :: rest))
    (offers : shown.Offers) (inside : id + 1 < graph.size)
    : graph.DraftedAt id := by
  refine draftedAt_of_holds holds (fun target successor => ?_) ⟨offers, holds.next_eq⟩
  obtain rfl := List.mem_singleton.mp successor
  exact ⟨Nat.lt_succ_self id, inside⟩

theorem draftedAt_dead {exit : Nat} (holds : graph.Holds id (⟨.dead, line, [exit]⟩ :: rest))
    (later : id < exit) (filled : graph.node exit ≠ .empty)
    : graph.DraftedAt id := by
  refine draftedAt_of_holds holds (fun target successor => ?_) ⟨exit, holds.next_eq, filled⟩
  obtain rfl := List.mem_singleton.mp successor
  exact ⟨later, lt_size_of_node_ne_empty filled⟩

end Graph

mutual

/-- All slots of a proper scope are those of a draft, given that its loose end goes on to a later
node, and that the graph stops where nothing closes the scope. By induction on the outline.
-/
theorem Scope.draftedAt {graph : Graph} (scope : Scope) {base exit : Nat}
    (holds : graph.Holds base (scope.slots base exit)) (proper : scope.Proper)
    (stops : scope.isFilled = false → base + scope.size = graph.size)
    (after : base + scope.size ≤ exit)
    (goesOn : scope.isLoose = true → graph.node exit ≠ .empty)
    : ∀ id, base ≤ id → id < base + scope.size → graph.DraftedAt id := by
  intro id low high
  cases scope with
  | beat shown line rest =>
      obtain ⟨offers, properRest⟩ := proper
      rw [Scope.size] at stops after high
      have holdsRest : graph.Holds (base + 1) (rest.slots (base + 1) exit) := holds.tail
      rcases Nat.eq_or_lt_of_le low with rfl | inRest
      · refine Graph.draftedAt_beat holds offers ?_
        -- whatever follows the beat takes a slot
        cases rest with
        | block line branches rest =>
            rw [Scope.slots, List.cons_append] at holdsRest
            exact holdsRest.lt_size
        | beat shown line rest => exact holdsRest.lt_size
        | ended line | dead line | runsOut line | unfilled => exact holdsRest.lt_size
      · refine rest.draftedAt holdsRest properRest ?_ (by omega) goesOn id inRest (by omega)
        intro open_
        have := stops open_
        omega
  | block line branches rest =>
      obtain ⟨guarded, properBranches, continued, properRest⟩ := proper
      rw [Scope.size] at stops after high
      obtain ⟨-, heads, holdsBranches, holdsRest⟩ := holds.of_block
      rw [Scope.slots, List.cons_append] at holds
      by_cases here : id = base
      · subst here
        refine Graph.draftedAt_of_holds holds (fun target successor => ?_) ?_
        · obtain ⟨later, filled⟩ := Branches.of_mem_heads holdsBranches properBranches successor
          exact ⟨later, Graph.lt_size_of_node_ne_empty filled⟩
        · refine ⟨guarded, ?_, fun target successor => ?_⟩
          · rw [heads]
            exact branches.length_heads _
          · rw [heads] at successor
            exact (Branches.of_mem_heads holdsBranches properBranches successor).2
      · by_cases inBranches : id < base + 1 + branches.size
        · refine branches.draftedAt holdsBranches properBranches (Nat.le_refl _) ?_ id (by omega)
            inBranches
          intro loose
          exact rest.node_ne_empty holdsRest (continued loose)
        · refine rest.draftedAt holdsRest properRest ?_ (by omega) goesOn id (by omega) (by omega)
          intro open_
          have := stops open_
          omega
  | ended line =>
      obtain rfl : id = base := by rw [Scope.size] at high; omega
      exact Graph.draftedAt_of_holds holds (fun target none => absurd none List.not_mem_nil)
        holds.next_eq
  | dead line =>
      obtain rfl : id = base := by rw [Scope.size] at high; omega
      exact Graph.draftedAt_dead holds (by rw [Scope.size] at after; omega) (goesOn rfl)
  | runsOut line =>
      obtain rfl : id = base := by rw [Scope.size] at high; omega
      exact Graph.draftedAt_dead holds (by rw [Scope.size] at after; omega) (goesOn rfl)
  | unfilled =>
      obtain rfl : id = base := by rw [Scope.size] at high; omega
      exact Graph.draftedAt_of_holds holds (fun target none => absurd none List.not_mem_nil)
        ⟨holds.next_eq, stops rfl⟩
termination_by sizeOf scope

/-- All slots of proper branches are those of a draft, given that their loose ends go on to a later
node. By induction on the outline.
-/
theorem Branches.draftedAt {graph : Graph} (branches : Branches) {base exit : Nat}
    (holds : graph.Holds base (branches.slots base exit)) (proper : branches.Proper)
    (after : base + branches.size ≤ exit)
    (goesOn : branches.anyLoose = true → graph.node exit ≠ .empty)
    : ∀ id, base ≤ id → id < base + branches.size → graph.DraftedAt id := by
  intro id low high
  cases branches with
  | nil =>
      rw [Branches.size] at high
      omega
  | cons guard body rest =>
      obtain ⟨filled, properBody, properRest⟩ := proper
      rw [Branches.size] at after high
      obtain ⟨holdsBody, holdsRest⟩ := holds.of_branch
      by_cases inBody : id < base + body.size
      · refine body.draftedAt holdsBody properBody ?_ (by omega) ?_ id low inBody
        · intro open_
          rw [filled] at open_
          exact Bool.noConfusion open_
        · intro loose
          exact goesOn (by rw [Branches.anyLoose, loose, Bool.true_or])
      · refine rest.draftedAt holdsRest properRest (by omega) ?_ id (by omega) (by omega)
        intro loose
        exact goesOn (by rw [Branches.anyLoose, loose, Bool.or_true])
termination_by sizeOf branches

end

-----------------------------------------------------------------------------------------
-- Whole outlines
-----------------------------------------------------------------------------------------

theorem Scope.size_layout (scope : Scope)
    : scope.layout.size = scope.size + 1 + (if scope.isLoose then 1 else 0) := by
  unfold layout Graph.size
  cases scope.isLoose <;> simp

/-- The layout holds the slots of its scope after the start. -/
theorem Scope.holds_layout (scope : Scope)
    : scope.layout.Holds 1 (scope.slots 1 (scope.size + 1)) := by
  have whole : scope.layout.Holds 0 scope.layout.slots := by
    intro index slot found
    rw [Nat.zero_add]
    exact found
  unfold layout at whole
  rw [List.cons_append] at whole
  exact whole.tail.left

theorem Scope.slot_layout_exit (scope : Scope) (loose : scope.isLoose = true)
    : scope.layout.slot (scope.size + 1) = ⟨.ending, 0, []⟩ := by
  refine Graph.slot_of_getElem? ?_
  simp [layout, loose]

theorem Scope.node_layout_exit (scope : Scope) (loose : scope.isLoose = true)
    : scope.layout.node (scope.size + 1) = .ending := by
  rw [Graph.node, scope.slot_layout_exit loose]

theorem Scope.line_layout_exit (scope : Scope) (loose : scope.isLoose = true)
    : scope.layout.line (scope.size + 1) = 0 := by
  rw [Graph.line, scope.slot_layout_exit loose]

/-- Laying out a proper outline gives a draft. -/
theorem Scope.drafted_layout {scope : Scope} (proper : scope.Proper) : scope.layout.Drafted where
  root := rfl
  start := rfl
  slots := by
    intro id inside
    have sizes := scope.size_layout
    have positive := scope.size_pos
    by_cases first : id = 0
    · subst first
      refine ⟨fun target successor => ?_, rfl, rfl⟩
      obtain rfl : target = 1 := List.mem_singleton.mp successor
      exact ⟨Nat.zero_lt_one, by omega⟩
    · by_cases inScope : id < 1 + scope.size
      · refine scope.draftedAt scope.holds_layout proper ?_ (by omega) ?_ id (by omega) inScope
        · intro open_
          have notLoose : scope.isLoose = false := by
            refine Bool.eq_false_iff.mpr fun loose => ?_
            rw [Scope.isFilled_of_isLoose loose] at open_
            exact Bool.noConfusion open_
          rw [notLoose] at sizes
          rw [sizes, Nat.add_comm]
          rfl
        · intro loose
          rw [scope.node_layout_exit loose]
          exact Node.noConfusion
      · have loose : scope.isLoose = true := by
          by_contra notLoose
          rw [if_neg notLoose] at sizes
          omega
        obtain rfl : id = scope.size + 1 := by
          rw [if_pos loose] at sizes
          omega
        have slot := scope.slot_layout_exit loose
        refine ⟨fun target successor => ?_, ?_⟩
        · rw [Graph.next, slot] at successor
          exact absurd successor List.not_mem_nil
        · rw [Graph.node, slot]
          show scope.layout.next _ = []
          rw [Graph.next, slot]

end Dialogue
