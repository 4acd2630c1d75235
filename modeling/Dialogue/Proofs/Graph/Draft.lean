import Dialogue.Proofs.Graph.Splicing

/-! Drafts: graphs as they are laid out, with placeholders. Splicing turns every draft into a
canonical graph.
-/

namespace Dialogue

/-- Whether the dialogue simply goes on from a node: it is the start or a beat. -/
def Node.isPlain : Node → Bool
  | .start | .beat _ => true
  | _ => false

/-- An option offers at least one choice; other beats offer none anyway. -/
def Beat.Offers : Beat → Prop
  | .option _ choices => choices ≠ []
  | _ => True

namespace Graph

/-- The successors that a node has in a draft. Only the last slot is empty, and only the plain node
in front of it leads to it.
-/
def Drafts (graph : Graph) (id : Nat) : Node → Prop
  | .start => id = graph.root ∧ graph.next id = [id + 1]
  | .beat shown => shown.Offers ∧ graph.next id = [id + 1]
  | .ending => graph.next id = []
  | .choice guards =>
      guards ≠ []
      ∧ (graph.next id).length = guards.length
      ∧ ∀ target ∈ graph.next id, graph.node target ≠ .empty
  | .dead => ∃ target, graph.next id = [target] ∧ graph.node target ≠ .empty
  | .empty => graph.next id = [] ∧ id + 1 = graph.size

/-- A slot of a draft leads forward and has the successors that go with its node. -/
structure DraftedAt (graph : Graph) (id : Nat) : Prop where
  forward : ∀ target ∈ graph.next id, id < target ∧ target < graph.size
  drafts : graph.Drafts id (graph.node id)

/-- A draft begins with its start, and all its slots have the successors that go with them. -/
structure Drafted (graph : Graph) : Prop where
  root : graph.root = 0
  start : graph.node 0 = .start
  slots : ∀ id < graph.size, graph.DraftedAt id

/-- The shape of a finished graph, in which every reachable node has the successors that playing
the dialogue relies on.
-/
structure Canonical (graph : Graph) : Prop where
  kept : ∀ id ∈ graph.reachable, graph.node id ≠ .dead ∧ graph.node id ≠ .empty
  start : ∀ id ∈ graph.reachable, graph.node id = .start ↔ id = graph.root
  first : ∀ id ∈ graph.reachable, graph.root ∉ graph.next id
  ending : ∀ id ∈ graph.reachable, graph.node id = .ending → graph.next id = []
  choice
    : ∀ id ∈ graph.reachable,
        ∀ guards,
          graph.node id = .choice guards
          → guards ≠ [] ∧ (graph.next id).length = guards.length
  option
    : ∀ id ∈ graph.reachable,
        ∀ name choices, graph.node id = .beat (.option name choices) → choices ≠ []
  plain
    : ∀ id ∈ graph.reachable, (graph.node id).isPlain = true → (graph.next id).length ≤ 1
  last
    : ∀ id ∈ graph.reachable,
        ∀ other ∈ graph.reachable,
          (graph.node id).isPlain = true
          → (graph.node other).isPlain = true
          → graph.next id = []
          → graph.next other = []
          → id = other

-----------------------------------------------------------------------------------------
-- Expanding the edges of drafts
-----------------------------------------------------------------------------------------

/-- Outside a draft there are no edges, so all its edges lead forward. -/
theorem Drafted.forward {graph : Graph} (draft : graph.Drafted) : graph.Forward := by
  intro source target successor
  exact (draft.slots source (lt_size_of_mem_next successor)).forward target successor

theorem Drafted.root_lt_size {graph : Graph} (draft : graph.Drafted) : graph.root < graph.size := by
  rw [draft.root]
  refine lt_size_of_node_ne_empty ?_
  rw [draft.start]
  exact Node.noConfusion

theorem Drafted.drafts {graph : Graph} (draft : graph.Drafted) {id : Nat} {node : Node}
    (found : graph.node id = node) (filled : node ≠ .empty)
    : graph.Drafts id node := by
  subst found
  exact (draft.slots id (lt_size_of_node_ne_empty filled)).drafts

/-- An edge to a node that is not empty expands to a single edge: a chain of dead nodes ends at a
node that is kept. By induction from the last slot backwards.
-/
theorem Drafted.length_expand {graph : Graph} (draft : graph.Drafted) {id : Nat}
    (filled : graph.node id ≠ .empty)
    : (graph.expand id).length = 1 := by
  have shape := draft.slots id (lt_size_of_node_ne_empty filled)
  cases found : graph.node id with
  | start | beat _ | ending | choice _ =>
      rw [expand_of_kept (by rw [found]; rfl)]
      rfl
  | empty => exact absurd found filled
  | dead =>
      obtain ⟨target, edges, targetFilled⟩ := draft.drafts found Node.noConfusion
      have later := shape.forward target (by rw [edges]; exact List.mem_singleton.mpr rfl)
      rw [draft.forward.expand_of_placeholder (by rw [found]; rfl), edges, List.flatMap_cons,
        List.flatMap_nil, List.append_nil]
      exact draft.length_expand targetFilled
termination_by graph.size - id
decreasing_by omega

theorem Drafted.expand_of_empty {graph : Graph} (draft : graph.Drafted) {id : Nat}
    (inside : id < graph.size) (found : graph.node id = .empty)
    : graph.expand id = [] := by
  have drafts := (draft.slots id inside).drafts
  rw [found] at drafts
  rw [draft.forward.expand_of_placeholder (by rw [found]; rfl), drafts.1, List.flatMap_nil]

theorem Drafted.length_flatMap_expand {graph : Graph} (draft : graph.Drafted) {edges : List Nat}
    (filled : ∀ target ∈ edges, graph.node target ≠ .empty)
    : (edges.flatMap graph.expand).length = edges.length := by
  induction edges with
  | nil => rfl
  | cons target rest ih =>
      have head := draft.length_expand (filled target List.mem_cons_self)
      have tail := ih fun other member => filled other (List.mem_cons_of_mem _ member)
      rw [List.flatMap_cons, List.length_append, head, tail, List.length_cons, Nat.add_comm]

theorem Drafted.length_expandedNext_of_choice {graph : Graph} (draft : graph.Drafted) {id : Nat}
    {guards : List Guard} (found : graph.node id = .choice guards)
    : guards ≠ [] ∧ (graph.expandedNext id).length = guards.length := by
  obtain ⟨guarded, many, filled⟩ := draft.drafts found Node.noConfusion
  exact ⟨guarded, (draft.length_flatMap_expand filled).trans many⟩

theorem Drafted.next_of_plain {graph : Graph} (draft : graph.Drafted) {id : Nat}
    (plain : (graph.node id).isPlain = true)
    : graph.next id = [id + 1] := by
  cases found : graph.node id with
  | start => exact (draft.drafts found Node.noConfusion).2
  | beat shown => exact (draft.drafts found Node.noConfusion).2
  | ending | choice _ | dead | empty => rw [found] at plain; exact Bool.noConfusion plain

theorem Drafted.expandedNext_of_plain {graph : Graph} (draft : graph.Drafted) {id : Nat}
    (plain : (graph.node id).isPlain = true)
    : graph.expandedNext id = graph.expand (id + 1) := by
  rw [expandedNext, draft.next_of_plain plain, List.flatMap_cons, List.flatMap_nil,
    List.append_nil]

/-- A plain node has one successor left, or none in front of an empty slot, which is the last one.
-/
theorem Drafted.plain_cases {graph : Graph} (draft : graph.Drafted) {id : Nat}
    (plain : (graph.node id).isPlain = true)
    : (graph.expandedNext id).length = 1
      ∨ (graph.expandedNext id = [] ∧ id + 2 = graph.size) := by
  rw [draft.expandedNext_of_plain plain]
  have successor : id + 1 ∈ graph.next id := by
    rw [draft.next_of_plain plain]
    exact List.mem_singleton.mpr rfl
  have inside := (draft.forward id (id + 1) successor).2
  by_cases found : graph.node (id + 1) = .empty
  · have drafts := (draft.slots (id + 1) inside).drafts
    rw [found] at drafts
    exact Or.inr ⟨draft.expand_of_empty inside found, drafts.2⟩
  · exact Or.inl (draft.length_expand found)

-----------------------------------------------------------------------------------------
-- Drafts become canonical
-----------------------------------------------------------------------------------------

/-- Where an edge of a reachable slot leads once placeholders have given way is reachable. -/
theorem Drafted.reachable_of_mem_expandedNext {graph : Graph} (draft : graph.Drafted)
    {source target : Nat} (reached : source ∈ graph.splice.reachable)
    (member : target ∈ graph.expandedNext source)
    : target ∈ graph.splice.reachable := by
  rw [← next_splice_of_reachable reached] at member
  exact draft.forward.splice.mem_reachable_of_successor reached member

/-- What is reachable once a draft is spliced is no placeholder: it is the start, or an expanded
edge leads to it.
-/
theorem Drafted.kept_of_reachable {graph : Graph} (draft : graph.Drafted) {id : Nat}
    (reached : id ∈ graph.splice.reachable)
    : (graph.node id).isPlaceholder = false := by
  have path := (draft.forward.splice.mem_reachable_iff
    (by rw [size_splice]; exact draft.root_lt_size)).mp reached
  rcases path.cases_tail with same | ⟨source, before, successor⟩
  · rw [same, root_splice, draft.root, draft.start]
    rfl
  · have sourceReached := (draft.forward.splice.mem_reachable_iff
      (by rw [size_splice]; exact draft.root_lt_size)).mpr before
    rw [next_splice_of_reachable sourceReached] at successor
    exact (draft.forward.of_mem_expandedNext successor).2.2

/-- Splicing makes a draft canonical. -/
theorem Drafted.canonical {graph : Graph} (draft : graph.Drafted) : graph.splice.Canonical where
  kept := by
    intro id reached
    have kept := draft.kept_of_reachable reached
    rw [node_splice]
    constructor <;> intro found <;> rw [found] at kept <;> exact Bool.noConfusion kept
  start := by
    intro id reached
    rw [node_splice, root_splice]
    constructor
    · intro found
      exact (draft.drafts found Node.noConfusion).1
    · intro same
      rw [same, draft.root, draft.start]
  first := by
    intro id _ successor
    have later := (draft.forward.splice id graph.root successor).1
    rw [draft.root] at later
    exact Nat.not_lt_zero id later
  ending := by
    intro id reached found
    rw [node_splice] at found
    have edges : graph.next id = [] := draft.drafts found Node.noConfusion
    rw [next_splice_of_reachable reached, expandedNext, edges, List.flatMap_nil]
  choice := by
    intro id reached guards found
    rw [node_splice] at found
    rw [next_splice_of_reachable reached]
    exact draft.length_expandedNext_of_choice found
  option := by
    intro id reached name choices found
    rw [node_splice] at found
    exact (draft.drafts found Node.noConfusion).1
  plain := by
    intro id reached plain
    rw [node_splice] at plain
    rw [next_splice_of_reachable reached]
    rcases draft.plain_cases plain with one | ⟨none, -⟩
    · exact Nat.le_of_eq one
    · rw [none]
      exact Nat.zero_le 1
  last := by
    intro id reached other otherReached plain otherPlain stops otherStops
    rw [node_splice] at plain otherPlain
    rw [next_splice_of_reachable reached] at stops
    rw [next_splice_of_reachable otherReached] at otherStops
    have before : id + 2 = graph.size := by
      rcases draft.plain_cases plain with one | ⟨-, before⟩
      · simp [stops] at one
      · exact before
    have otherBefore : other + 2 = graph.size := by
      rcases draft.plain_cases otherPlain with one | ⟨-, before⟩
      · simp [otherStops] at one
      · exact before
    omega

end Graph

end Dialogue
