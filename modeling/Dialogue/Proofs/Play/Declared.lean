import Mathlib.Data.List.Sort
import Dialogue.Proofs.Play.Performance
import Dialogue.Proofs.Script.Liveness
import Dialogue.Proofs.Script.Parsing

/-! What an engine remembers before its first step: the options on the ways into the tree, none of
them answered.
-/

namespace Dialogue

-----------------------------------------------------------------------------------------
-- Declaring options
-----------------------------------------------------------------------------------------

namespace Memory

/-- Entries stand in the order of their names, so a memory is determined by which entries it has. -/
theorem ext_of_mem_entries {left right : Memory}
    (same : ∀ entry, entry ∈ left.entries ↔ entry ∈ right.entries)
    : left = right := by
  obtain ⟨entries, sorted⟩ := left
  obtain ⟨others, sortedOthers⟩ := right
  have different
      : ∀ {left right : String × Option Nat}, left.1 < right.1 → left ≠ right := by
    rintro left _ before rfl
    exact String.lt_irrefl _ before
  have perm : entries.Perm others :=
    (List.perm_ext_iff_of_nodup (sorted.imp different) (sortedOthers.imp different)).mpr same
  congr
  refine perm.eq_of_pairwise (fun first second _ _ before after => ?_) sorted sortedOthers
  exact absurd (String.lt_trans before after) (String.lt_irrefl _)

/-- Putting an entry of a new name adds it and keeps the others, by induction on the list. -/
theorem mem_putEntry_iff {name : String} {answer : Option Nat}
    {entries : List (String × Option Nat)} (new : ∀ entry ∈ entries, entry.1 ≠ name)
    {entry : String × Option Nat}
    : entry ∈ putEntry name answer entries ↔ entry = (name, answer) ∨ entry ∈ entries := by
  induction entries with
  | nil => simp [putEntry]
  | cons first rest ih =>
      have newInRest := ih fun other member => new other (List.mem_cons_of_mem _ member)
      unfold putEntry
      split
      · rw [List.mem_cons, List.mem_cons, newInRest]
        exact or_left_comm
      · rw [if_neg (new first List.mem_cons_self)]
        exact List.mem_cons

theorem isDeclared_iff {memory : Memory} {name : String}
    : memory.isDeclared name = true ↔ ∃ entry ∈ memory.entries, entry.1 = name := by
  unfold isDeclared entry?
  rw [List.lookup_isSome_iff]
  exact exists_congr fun _ => and_congr_right fun _ => beq_iff_eq.trans eq_comm

/-- Declaring options where none is answered gives them and the earlier ones, without answers. By
induction on the names.
-/
theorem mem_entries_foldl_declare {names : List String} {memory : Memory}
    (unanswered : ∀ entry ∈ memory.entries, entry.2 = none) {entry : String × Option Nat}
    : entry ∈ (names.foldl (fun memory name => memory.declare name) memory).entries
      ↔ entry ∈ memory.entries ∨ (entry.1 ∈ names ∧ entry.2 = none) := by
  induction names generalizing memory with
  | nil => simp
  | cons name rest ih =>
      rw [List.foldl_cons, List.mem_cons]
      cases declared : memory.isDeclared name with
      | true =>
          obtain ⟨known, member, rfl⟩ := isDeclared_iff.mp declared
          have unchanged : memory.declare known.1 = memory := if_pos declared
          have noAnswer := unanswered known member
          rw [unchanged, ih unanswered]
          constructor
          · tauto
          · rintro (inMemory | ⟨same | later, none⟩)
            · exact Or.inl inMemory
            · obtain rfl : entry = known := Prod.ext same (none.trans noAnswer.symm)
              exact Or.inl member
            · exact Or.inr ⟨later, none⟩
      | false =>
          have added : memory.declare name = memory.put name none := by
            simp [declare, declared]
          have new : ∀ other ∈ memory.entries, other.1 ≠ name := by
            intro other member same
            rw [isDeclared_iff.mpr ⟨other, member, same⟩] at declared
            exact Bool.noConfusion declared
          have entries : ∀ {other}, other ∈ (memory.put name none).entries
              ↔ other = (name, none) ∨ other ∈ memory.entries :=
            mem_putEntry_iff new
          rw [added, ih, entries, Prod.ext_iff]
          · tauto
          · intro other member
            rcases entries.mp member with rfl | member
            · rfl
            · exact unanswered other member

/-- Which options are declared does not depend on their order and repetitions. -/
theorem declareAll_congr {names others : List String} (same : ∀ name, name ∈ names ↔ name ∈ others)
    : declareAll names = declareAll others := by
  have none : ∀ entry ∈ empty.entries, entry.2 = none := fun _ member => nomatch member
  refine ext_of_mem_entries fun entry => ?_
  unfold declareAll
  rw [mem_entries_foldl_declare none, mem_entries_foldl_declare none, same]

end Memory

-----------------------------------------------------------------------------------------
-- Presented options
-----------------------------------------------------------------------------------------

/-- The slot presents the option of this name. -/
def Graph.Presents (graph : Graph) (name : String) (id : Nat) : Prop :=
  ∃ choices, graph.node id = .beat (.option name choices)

/-- A graph can present the options of its reachable slots. -/
theorem Graph.mem_optionNames_iff {graph : Graph} {name : String}
    : name ∈ graph.optionNames ↔ ∃ id ∈ graph.reachable, graph.Presents name id := by
  unfold optionNames Presents
  rw [List.mem_filterMap]
  refine exists_congr fun id => and_congr_right fun _ => ?_
  split
  · next other choices found => simp [found]
  · next plain =>
      refine iff_of_false nofun ?_
      rintro ⟨choices, found⟩
      exact plain name choices found

theorem Remark.presents_iff {graph : Graph} {remark : Remark} {id : Nat} {name : String}
    (found : graph.node id = .beat remark.beat)
    : graph.Presents name id ↔ name ∈ remark.names := by
  unfold Graph.Presents
  rw [found]
  cases remark <;> simp [Remark.beat, Remark.names, eq_comm]

mutual

/-- There is a way through a tree if there is one through its outline, by induction on the tree. -/
theorem Passage.Outlined.completes_eq {passage : Passage} {scope : Scope}
    (outlined : passage.Outlined scope)
    : scope.completes = passage.completes := by
  cases outlined with
  | remark rest => exact rest.completes_eq
  | choices inner rest =>
      rw [Scope.completes, Passage.completes, inner.complete_eq, rest.completes_eq]
  | ended | dead | runsOut | unfilled => rfl

theorem Forks.Outlined.complete_eq {forks : Forks} {branches : Branches}
    (outlined : forks.Outlined branches)
    : branches.complete = forks.complete := by
  cases outlined with
  | last body =>
      rw [Branches.complete, Branches.complete, Bool.or_false, Forks.complete, body.completes_eq]
  | cons body others =>
      rw [Branches.complete, Forks.complete, body.completes_eq, others.complete_eq]

end

mutual

/-- The live slots of a tree's outline present the options on the ways into the tree. By induction
on the tree.
-/
theorem Passage.Outlined.presents_iff {graph : Graph} {passage : Passage} {scope : Scope}
    (outlined : passage.Outlined scope) {base exit : Nat}
    (holds : graph.Holds base (scope.slots base exit)) {name : String}
    : (∃ id ∈ scope.live base, graph.Presents name id) ↔ name ∈ passage.presented := by
  cases outlined with
  | @remark remark rest line scope outlined =>
      rw [Scope.live, Passage.presented, List.mem_append, ← outlined.presents_iff holds.tail,
        ← Remark.presents_iff holds.node_eq]
      simp only [List.mem_cons, or_and_right, exists_or, exists_eq_left]
  | @choices forks rest line branches scope inner outlined =>
      obtain ⟨node, -, holdsBranches, holdsRest⟩ := holds.of_block
      have noOption : ¬ graph.Presents name base := by
        rintro ⟨choices, found⟩
        rw [node] at found
        cases found
      rw [Scope.live, Passage.presented, List.mem_append, ← inner.presents_iff holdsBranches,
        ← inner.complete_eq]
      cases branches.complete with
      | true =>
          rw [if_pos rfl, if_pos rfl, ← outlined.presents_iff holdsRest]
          simp [or_and_right, exists_or, noOption]
      | false => simp [noOption]
  | ended =>
      refine iff_of_false ?_ List.not_mem_nil
      rintro ⟨id, member, choices, found⟩
      obtain rfl := List.mem_singleton.mp member
      rw [holds.node_eq] at found
      cases found
  | dead | runsOut | unfilled => simp [Scope.live, Passage.presented]

theorem Forks.Outlined.presents_iff {graph : Graph} {forks : Forks} {branches : Branches}
    (outlined : forks.Outlined branches) {base exit : Nat}
    (holds : graph.Holds base (branches.slots base exit)) {name : String}
    : (∃ id ∈ branches.live base, graph.Presents name id) ↔ name ∈ forks.presented := by
  cases outlined with
  | last body =>
      rw [Branches.live, Branches.live, List.append_nil, Forks.presented,
        body.presents_iff holds.of_branch.1]
  | cons body others =>
      obtain ⟨holdsBody, holdsRest⟩ := holds.of_branch
      rw [Branches.live, Forks.presented, List.mem_append, ← body.presents_iff holdsBody,
        ← others.presents_iff holdsRest]
      simp [or_and_right, exists_or]

end

/-- On the spliced layout of a tree's outline an engine begins with the options on the ways into the
tree.
-/
theorem Passage.Outlined.memory_start {passage : Passage} {scope : Scope}
    (outlined : passage.Outlined scope) (proper : scope.Proper)
    : (Engine.start scope.layout.splice).memory = .declareAll passage.presented := by
  refine Memory.declareAll_congr fun name => ?_
  rw [Graph.mem_optionNames_iff, ← outlined.presents_iff scope.holds_layout]
  have same : ∀ id, scope.layout.splice.Presents name id ↔ scope.layout.Presents name id := by
    intro id
    rw [Graph.Presents, Graph.node_splice]
    rfl
  constructor
  · rintro ⟨id, reached, presents⟩
    obtain ⟨choices, found⟩ := (same id).mp presents
    rcases (Scope.mem_reachable_layout_iff proper).mp reached with rfl | live | ⟨-, behind⟩
    · cases found
    · exact ⟨id, live, choices, found⟩
    · -- behind the scope there is at most an ending
      rw [Scope.expand_layout_exit proper] at behind
      split at behind
      · next loose =>
          obtain rfl := List.mem_singleton.mp behind
          rw [scope.node_layout_exit loose] at found
          cases found
      · exact absurd behind List.not_mem_nil
  · rintro ⟨id, live, presents⟩
    exact ⟨id, (Scope.mem_reachable_layout_iff proper).mpr (Or.inr (Or.inl live)),
      (same id).mpr presents⟩

end Dialogue
