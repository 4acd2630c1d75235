import Mathlib.Logic.Relation
import Mathlib.Data.List.Perm.Subperm
import Dialogue.Graph.Preorder

/-! The walk over a graph enters exactly the numbers that a path from its start leads to, each of
them once.
-/

namespace Dialogue

/-- A path along `next` leads from one number to another. -/
abbrev Reaches (next : Nat → List Nat) : Nat → Nat → Prop :=
  Relation.ReflTransGen fun source target => target ∈ next source

theorem enterAll_of_dropWhile_nil {next : Nat → List Nat} {unseen waiting : List Nat}
    (h : waiting.dropWhile (· ∉ unseen) = [])
    : enterAll next unseen waiting = [] := by
  rw [enterAll]
  split
  · rfl
  · next found => cases h.symm.trans found

/-- The walk enters the first unseen number that is waiting, by unfolding one step. -/
theorem enterAll_of_dropWhile_cons {next : Nat → List Nat} {unseen waiting rest : List Nat}
    {id : Nat} (h : waiting.dropWhile (· ∉ unseen) = id :: rest)
    : enterAll next unseen waiting
        = id :: enterAll next (unseen.erase id) (next id ++ rest) := by
  rw [enterAll]
  split
  · next none => cases h.symm.trans none
  · next found =>
      obtain ⟨rfl, rfl⟩ := List.cons.inj (h.symm.trans found)
      rfl

/-- What is unseen and waiting is not passed over, by induction on the list. -/
theorem mem_dropWhile_of_mem {unseen waiting : List Nat} {id : Nat} (isWaiting : id ∈ waiting)
    (isUnseen : id ∈ unseen)
    : id ∈ waiting.dropWhile (· ∉ unseen) := by
  induction waiting with
  | nil => simp at isWaiting
  | cons head rest ih =>
      by_cases seen : head ∈ unseen
      · rw [List.dropWhile_cons_of_neg (by simpa using seen)]
        exact isWaiting
      · rw [List.dropWhile_cons_of_pos (by simpa using seen)]
        refine ih (List.mem_of_ne_of_mem (fun same => ?_) isWaiting)
        exact seen (same ▸ isUnseen)

-----------------------------------------------------------------------------------------
-- What the walk enters
-----------------------------------------------------------------------------------------

/-- Only unseen numbers are entered, by induction on the walk. -/
theorem mem_unseen_of_mem_enterAll {next : Nat → List Nat} {unseen waiting : List Nat} {id : Nat}
    (entered : id ∈ enterAll next unseen waiting)
    : id ∈ unseen := by
  induction unseen, waiting using enterAll.induct next with
  | case1 unseen waiting none =>
      rw [enterAll_of_dropWhile_nil none] at entered
      simp at entered
  | case2 unseen waiting first rest found ih =>
      rw [enterAll_of_dropWhile_cons found] at entered
      rcases List.mem_cons.mp entered with rfl | later
      · exact mem_of_dropWhile_eq_cons found
      · exact List.mem_of_mem_erase (ih later)

/-- No number is entered twice: what is entered is no longer unseen. By induction on the walk. -/
theorem nodup_enterAll {next : Nat → List Nat} {unseen waiting : List Nat}
    (distinct : unseen.Nodup)
    : (enterAll next unseen waiting).Nodup := by
  induction unseen, waiting using enterAll.induct next with
  | case1 unseen waiting none =>
      rw [enterAll_of_dropWhile_nil none]
      exact List.nodup_nil
  | case2 unseen waiting first rest found ih =>
      rw [enterAll_of_dropWhile_cons found]
      refine List.nodup_cons.mpr ⟨fun again => ?_, ih (distinct.erase first)⟩
      exact distinct.not_mem_erase (mem_unseen_of_mem_enterAll again)

/-- Every number that is entered lies on a path from one that was waiting, by induction on the
walk.
-/
theorem reaches_of_mem_enterAll {next : Nat → List Nat} {unseen waiting : List Nat} {id : Nat}
    (entered : id ∈ enterAll next unseen waiting)
    : ∃ source ∈ waiting, Reaches next source id := by
  induction unseen, waiting using enterAll.induct next with
  | case1 unseen waiting none =>
      rw [enterAll_of_dropWhile_nil none] at entered
      simp at entered
  | case2 unseen waiting first rest found ih =>
      have kept : first :: rest ⊆ waiting := by
        rw [← found]
        exact List.dropWhile_subset _
      rw [enterAll_of_dropWhile_cons found] at entered
      rcases List.mem_cons.mp entered with rfl | later
      · exact ⟨id, kept List.mem_cons_self, .refl⟩
      · obtain ⟨source, isWaiting, path⟩ := ih later
        rcases List.mem_append.mp isWaiting with successor | left
        · exact ⟨first, kept List.mem_cons_self, .head successor path⟩
        · exact ⟨source, kept (List.mem_cons_of_mem _ left), path⟩

/-- Whatever waits unseen is entered in the end, by induction on the walk. -/
theorem mem_enterAll_of_waiting {next : Nat → List Nat} {unseen waiting : List Nat} {id : Nat}
    (isWaiting : id ∈ waiting) (isUnseen : id ∈ unseen)
    : id ∈ enterAll next unseen waiting := by
  induction unseen, waiting using enterAll.induct next with
  | case1 unseen waiting none =>
      have left := mem_dropWhile_of_mem isWaiting isUnseen
      rw [none] at left
      simp at left
  | case2 unseen waiting first rest found ih =>
      rw [enterAll_of_dropWhile_cons found]
      have left := mem_dropWhile_of_mem isWaiting isUnseen
      rw [found] at left
      by_cases same : id = first
      · exact same ▸ List.mem_cons_self
      · refine List.mem_cons_of_mem _ (ih ?_ ?_)
        · exact List.mem_append_right _ (List.mem_of_ne_of_mem same left)
        · exact (List.mem_erase_of_ne same).mpr isUnseen

/-- The unseen successors of what is entered are entered as well, by induction on the walk. -/
theorem mem_enterAll_of_successor {next : Nat → List Nat} {unseen waiting : List Nat}
    {source target : Nat} (entered : source ∈ enterAll next unseen waiting)
    (successor : target ∈ next source) (isUnseen : target ∈ unseen)
    : target ∈ enterAll next unseen waiting := by
  induction unseen, waiting using enterAll.induct next with
  | case1 unseen waiting none =>
      rw [enterAll_of_dropWhile_nil none] at entered
      simp at entered
  | case2 unseen waiting first rest found ih =>
      rw [enterAll_of_dropWhile_cons found] at entered ⊢
      by_cases same : target = first
      · exact same ▸ List.mem_cons_self
      · have stillUnseen := (List.mem_erase_of_ne same).mpr isUnseen
        refine List.mem_cons_of_mem _ ?_
        rcases List.mem_cons.mp entered with rfl | later
        · exact mem_enterAll_of_waiting (List.mem_append_left _ successor) stillUnseen
        · exact ih later stillUnseen

/-- Two walks agree when the successors of everything that one of them enters do, by induction on
the walk.
-/
theorem enterAll_congr {next other : Nat → List Nat} {unseen waiting : List Nat}
    (same : ∀ id ∈ enterAll next unseen waiting, other id = next id)
    : enterAll other unseen waiting = enterAll next unseen waiting := by
  induction unseen, waiting using enterAll.induct next with
  | case1 unseen waiting none =>
      rw [enterAll_of_dropWhile_nil none, enterAll_of_dropWhile_nil none]
  | case2 unseen waiting first rest found ih =>
      rw [enterAll_of_dropWhile_cons found] at same ⊢
      rw [enterAll_of_dropWhile_cons found, same first List.mem_cons_self]
      rw [ih fun id later => same id (List.mem_cons_of_mem _ later)]

-----------------------------------------------------------------------------------------
-- The preorder
-----------------------------------------------------------------------------------------

theorem nodup_preorder (next : Nat → List Nat) (size root : Nat)
    : (preorder next size root).Nodup :=
  nodup_enterAll List.nodup_range

theorem lt_of_mem_preorder {next : Nat → List Nat} {size root id : Nat}
    (entered : id ∈ preorder next size root)
    : id < size :=
  List.mem_range.mp (mem_unseen_of_mem_enterAll entered)

theorem root_mem_preorder {next : Nat → List Nat} {size root : Nat} (inside : root < size)
    : root ∈ preorder next size root :=
  mem_enterAll_of_waiting List.mem_cons_self (List.mem_range.mpr inside)

theorem mem_preorder_of_successor {next : Nat → List Nat} {size root source target : Nat}
    (entered : source ∈ preorder next size root) (successor : target ∈ next source)
    (inside : target < size)
    : target ∈ preorder next size root :=
  mem_enterAll_of_successor entered successor (List.mem_range.mpr inside)

/-- Where no successor lies beyond the size, the preorder holds exactly what the root reaches, by
induction on the path.
-/
theorem mem_preorder_iff {next : Nat → List Nat} {size root id : Nat} (inside : root < size)
    (bounded : ∀ source, ∀ target ∈ next source, target < size)
    : id ∈ preorder next size root ↔ Reaches next root id := by
  constructor
  · intro entered
    obtain ⟨source, isWaiting, path⟩ := reaches_of_mem_enterAll entered
    rw [List.mem_singleton.mp isWaiting] at path
    exact path
  · intro path
    induction path with
    | refl => exact root_mem_preorder inside
    | tail _ successor ih => exact mem_preorder_of_successor ih successor (bounded _ _ successor)

namespace Graph

theorem nodup_reachable (graph : Graph) : graph.reachable.Nodup :=
  nodup_preorder graph.next graph.size graph.root

theorem InRange.lt_size_of_mem_next {graph : Graph} (inRange : graph.InRange) {source target : Nat}
    (successor : target ∈ graph.next source)
    : target < graph.size := by
  unfold next slot at successor
  cases found : graph.slots[source]? with
  | none => simp [found] at successor
  | some slot =>
      rw [found] at successor
      exact inRange.2 slot (List.mem_of_getElem? found) target successor

/-- Where edges stay inside the graph, what is reachable is what the paths from the root lead to. -/
theorem InRange.mem_reachable_iff {graph : Graph} (inRange : graph.InRange) {id : Nat}
    : id ∈ graph.reachable ↔ Reaches graph.next graph.root id :=
  mem_preorder_iff inRange.1 fun _ _ successor => inRange.lt_size_of_mem_next successor

theorem InRange.mem_reachable_of_successor {graph : Graph} (inRange : graph.InRange)
    {source target : Nat} (reached : source ∈ graph.reachable)
    (successor : target ∈ graph.next source)
    : target ∈ graph.reachable :=
  mem_preorder_of_successor reached successor (inRange.lt_size_of_mem_next successor)

theorem length_reachable_le (graph : Graph) : graph.reachable.length ≤ graph.size := by
  have inside : graph.reachable ⊆ List.range graph.size :=
    fun _ entered => List.mem_range.mpr (lt_of_mem_preorder entered)
  have few := (List.subperm_of_subset graph.nodup_reachable inside).length_le
  rwa [List.length_range] at few

end Graph

end Dialogue
