import Mathlib.Computability.StateTransition
import Dialogue.Graph.Search
import Dialogue.Proofs.Graph.Expansion
import Dialogue.Proofs.Text.Numerals
import Dialogue.Proofs.Text.Trimming

/-! The reachable slots in depth-first preorder: the order in which a recursive walk marks and
enters them, and in which a search with a stack does. What waits on the stack below the successors
of a slot is what the recursion has left to do when it returns from them.
-/

namespace Dialogue

-----------------------------------------------------------------------------------------
-- The recursive walk
-----------------------------------------------------------------------------------------

/-- A recursive walk takes numbers from left to right and passes over those that are marked. It
marks a number when it enters it, and takes the successors of the number before the numbers that
are left. The last list is the order in which it enters numbers.
-/
inductive Enters (next : Nat → List Nat) : List Nat → List Nat → List Nat → Prop where
  | done {marked} : Enters next marked [] []
  | passed {marked id rest order} (old : id ∈ marked) (later : Enters next marked rest order)
    : Enters next marked (id :: rest) order
  | entered {marked id rest inner order} (fresh : id ∉ marked)
    (successors : Enters next (id :: marked) (next id) inner)
    (later : Enters next (inner ++ id :: marked) rest order)
    : Enters next marked (id :: rest) (id :: inner ++ order)

namespace Enters

variable {next : Nat → List Nat} {marked waiting order : List Nat}

/-- There is one order at most, by induction on one walk and cases on the other. -/
theorem unique {other : List Nat} (left : Enters next marked waiting order)
    (right : Enters next marked waiting other)
    : order = other := by
  induction left generalizing other with
  | done =>
      cases right
      rfl
  | passed old _ ih =>
      cases right with
      | passed _ later => exact ih later
      | entered fresh _ _ => exact absurd old fresh
  | entered fresh _ _ ihSuccessors ihLater =>
      cases right with
      | passed old _ => exact absurd old fresh
      | entered _ successors later =>
          obtain rfl := ihSuccessors successors
          rw [ihLater later]

/-- Which numbers are marked matters, not their order. By induction on the walk. -/
theorem congr (walk : Enters next marked waiting order) {others : List Nat}
    (same : ∀ id, id ∈ marked ↔ id ∈ others)
    : Enters next others waiting order := by
  induction walk generalizing others with
  | done => exact .done
  | passed old _ ih => exact .passed ((same _).mp old) (ih same)
  | entered fresh _ _ ihSuccessors ihLater =>
      refine .entered (fun old => fresh ((same _).mpr old)) (ihSuccessors ?_) (ihLater ?_)
      · exact fun id => by simp [same id]
      · exact fun id => by simp [same id]

/-- Numbers that are taken together can be taken one part after the other, by induction on the
walk.
-/
theorem split {first second : List Nat} (walk : Enters next marked (first ++ second) order)
    : ∃ inner outer,
        order = inner ++ outer
        ∧ Enters next marked first inner
        ∧ Enters next (inner ++ marked) second outer := by
  generalize together : first ++ second = waiting at walk
  induction walk generalizing first with
  | @done marked =>
      obtain ⟨rfl, rfl⟩ := List.append_eq_nil_iff.mp together
      exact ⟨[], [], rfl, .done, .done⟩
  | @passed marked id rest order old later ih =>
      cases first with
      | nil =>
          obtain rfl : second = id :: rest := together
          exact ⟨[], order, rfl, .done, .passed old later⟩
      | cons head tail =>
          obtain ⟨rfl, left⟩ := List.cons.inj together
          obtain ⟨inner, outer, rfl, start, stop⟩ := ih left
          exact ⟨inner, outer, rfl, .passed old start, stop⟩
  | @entered marked id rest inner order fresh successors later _ ih =>
      cases first with
      | nil =>
          obtain rfl : second = id :: rest := together
          exact ⟨[], id :: inner ++ order, rfl, .done, .entered fresh successors later⟩
      | cons head tail =>
          obtain ⟨rfl, left⟩ := List.cons.inj together
          obtain ⟨middle, outer, rfl, start, stop⟩ := ih left
          refine ⟨head :: inner ++ middle, outer, ?_, .entered fresh successors start, ?_⟩
          · rw [List.append_assoc]
          · exact stop.congr fun id => by simp; tauto

/-- Where nothing is marked the first number is entered first. -/
theorem head? {id : Nat} {rest : List Nat} (walk : Enters next [] (id :: rest) order)
    : order.head? = some id := by
  cases walk with
  | passed old _ => cases old
  | entered _ _ _ => rfl

/-- Marked numbers in front are passed over, by induction on them. -/
theorem of_marked {before : List Nat} (old : ∀ id ∈ before, id ∈ marked)
    (walk : Enters next marked waiting order)
    : Enters next marked (before ++ waiting) order := by
  induction before with
  | nil => exact walk
  | cons id rest ih =>
      obtain ⟨first, others⟩ := List.forall_mem_cons.mp old
      exact .passed first (ih others)

end Enters

section Walk

variable {next : Nat → List Nat} {size : Nat} {unseen marked waiting : List Nat}

/-- Numbers that are still unseen below a size are those that are not marked. -/
def Complements (size : Nat) (unseen marked : List Nat) : Prop :=
  unseen.Nodup ∧ ∀ id < size, id ∈ unseen ↔ id ∉ marked

theorem Complements.enter (complements : Complements size unseen marked) (id : Nat)
    : Complements size (unseen.erase id) (id :: marked) := by
  obtain ⟨distinct, agree⟩ := complements
  refine ⟨distinct.erase id, fun other inside => ?_⟩
  rw [distinct.mem_erase_iff, agree other inside, List.mem_cons, not_or]

/-- What is passed over at the head of the waiting numbers is marked. -/
theorem Complements.marked_of_takeWhile (complements : Complements size unseen marked)
    (inside : ∀ id ∈ waiting, id < size)
    : ∀ id ∈ waiting.takeWhile (· ∉ unseen), id ∈ marked := by
  intro id member
  have old : id ∉ unseen := by simpa using List.mem_takeWhile_imp member
  have bounded := inside id ((List.takeWhile_sublist _).subset member)
  simpa [complements.2 id bounded] using old

/-- The walk that keeps what is left to do in one list enters numbers in the order of the recursion,
by induction on it: what the recursion does with the successors and with the rest it does with all
of them in turn.
-/
theorem enters_enterAll (complements : Complements size unseen marked)
    (inside : ∀ id ∈ waiting, id < size) (bounded : ∀ source, ∀ target ∈ next source, target < size)
    : Enters next marked waiting (enterAll next unseen waiting) := by
  have halves := List.takeWhile_append_dropWhile (p := (· ∉ unseen)) (l := waiting)
  induction unseen, waiting using enterAll.induct next generalizing marked with
  | case1 unseen waiting none =>
      rw [enterAll_of_dropWhile_nil none, ← halves, none]
      exact .of_marked (complements.marked_of_takeWhile inside) .done
  | case2 unseen waiting first rest found ih =>
      have kept : ∀ id ∈ first :: rest, id < size := by
        rw [← found]
        exact fun id member => inside id ((List.dropWhile_sublist _).subset member)
      obtain ⟨firstInside, restInside⟩ := List.forall_mem_cons.mp kept
      have fresh : first ∉ marked :=
        (complements.2 first firstInside).mp (mem_of_dropWhile_eq_cons found)
      have later : ∀ id ∈ next first ++ rest, id < size := by
        intro id member
        rcases List.mem_append.mp member with successor | left
        · exact bounded first id successor
        · exact restInside id left
      have together := ih (complements.enter first) later List.takeWhile_append_dropWhile
      obtain ⟨inner, outer, order, successors, others⟩ := together.split
      rw [enterAll_of_dropWhile_cons found, order, ← halves, found]
      exact .of_marked (complements.marked_of_takeWhile inside) (.entered fresh successors others)

end Walk

-----------------------------------------------------------------------------------------
-- The search with a stack
-----------------------------------------------------------------------------------------

namespace Search

variable {graph : Graph} {marks : List Bool} {unseen order stack waiting : List Nat} {id : Nat}

/-- The marks of a search tell which slots are still unseen. -/
def Marks (graph : Graph) (unseen : List Nat) (marks : List Bool) : Prop :=
  ∀ id < graph.size, marks[id]? = some (decide (id ∉ unseen))

theorem step_passed (marked : marks[id]? = some true)
    : step graph ⟨marks, order, stack ++ [id]⟩ = some ⟨marks, order, stack⟩ := by
  simp [step, marked]

theorem step_entered (unmarked : marks[id]? = some false) (inside : id < graph.size)
    : step graph ⟨marks, order, stack ++ [id]⟩
        = some ⟨marks.set id true, order ++ [id], stack ++ (graph.next id).reverse⟩ := by
  simp [step, unmarked, Graph.getElem?_slots inside, Graph.next]

/-- Numbers on the stack that are marked are popped, by induction on them. -/
theorem reaches_dropWhile (marks_unseen : Marks graph unseen marks)
    (inside : ∀ id ∈ waiting, id < graph.size) (order : List Nat)
    : StateTransition.Reaches (step graph) ⟨marks, order, waiting.reverse⟩
        ⟨marks, order, (waiting.dropWhile (· ∉ unseen)).reverse⟩ := by
  induction waiting with
  | nil => exact .refl
  | cons id rest ih =>
      obtain ⟨idInside, restInside⟩ := List.forall_mem_cons.mp inside
      by_cases seen : id ∈ unseen
      · rw [List.dropWhile_cons_of_neg (by simpa using seen)]
        exact .refl
      · rw [List.dropWhile_cons_of_pos (by simpa using seen), List.reverse_cons]
        have marked : marks[id]? = some true := by simpa [seen] using marks_unseen id idInside
        exact .head (step_passed marked) (ih restInside)

/-- Marking a slot when it is entered keeps the marks right, by cases on the slot. -/
theorem Marks.enter (marks_unseen : Marks graph unseen marks) (distinct : unseen.Nodup)
    (inside : id < graph.size)
    : Marks graph (unseen.erase id) (marks.set id true) := by
  intro other otherInside
  by_cases same : other = id
  · subst same
    have present := marks_unseen other otherInside
    simp [(List.getElem?_eq_some_iff.mp present).1, distinct.not_mem_erase]
  · rw [List.getElem?_set_ne (Ne.symm same), marks_unseen other otherInside]
    simp only [List.mem_erase_of_ne same]

/-- The search enters what the walk over its stack enters, in the same order. By induction on that
walk: the successors of a slot come on top of what is left of the stack.
-/
theorem reaches_enterAll (inRange : graph.InRange) (marks_unseen : Marks graph unseen marks)
    (distinct : unseen.Nodup) (inside : ∀ id ∈ waiting, id < graph.size) (order : List Nat)
    : ∃ last,
        StateTransition.Reaches (step graph) ⟨marks, order, waiting.reverse⟩
          ⟨last, order ++ enterAll graph.next unseen waiting, []⟩ := by
  induction unseen, waiting using enterAll.induct graph.next generalizing marks order with
  | case1 unseen waiting none =>
      have popped := reaches_dropWhile marks_unseen inside order
      rw [none] at popped
      rw [enterAll_of_dropWhile_nil none, List.append_nil]
      exact ⟨marks, popped⟩
  | case2 unseen waiting first rest found ih =>
      have popped := reaches_dropWhile marks_unseen inside order
      rw [found, List.reverse_cons] at popped
      have kept : ∀ id ∈ first :: rest, id < graph.size := by
        rw [← found]
        exact fun id member => inside id ((List.dropWhile_sublist _).subset member)
      obtain ⟨firstInside, restInside⟩ := List.forall_mem_cons.mp kept
      have unmarked : marks[first]? = some false := by
        simpa [mem_of_dropWhile_eq_cons found] using marks_unseen first firstInside
      have later : ∀ id ∈ graph.next first ++ rest, id < graph.size := by
        intro id member
        rcases List.mem_append.mp member with successor | left
        · exact inRange.lt_size_of_mem_next successor
        · exact restInside id left
      obtain ⟨last, onward⟩ :=
        ih (marks_unseen.enter distinct firstInside) (distinct.erase first) later
          (order ++ [first])
      rw [List.reverse_append, List.append_assoc, List.singleton_append] at onward
      rw [enterAll_of_dropWhile_cons found]
      exact ⟨last, popped.trans (.head (step_entered unmarked firstInside) onward)⟩

end Search

-----------------------------------------------------------------------------------------
-- The printed graph
-----------------------------------------------------------------------------------------

namespace Graph

/-- A printed line is that of the slot with this number: it begins with the number. -/
def IsLineOf (id : Nat) (line : String) : Prop :=
  ("#" ++ toString id ++ " ").toList <+: line.toList

instance (id : Nat) (line : String) : Decidable (IsLineOf id line) :=
  inferInstanceAs (Decidable (_ <+: _))

/-- No other number begins the line of a slot: its digits end where the first blank stands. -/
theorem isLineOf_renderSlot_iff (graph : Graph) {id other : Nat}
    : IsLineOf other (graph.renderSlot id) ↔ other = id := by
  obtain ⟨rest, shape⟩
      : ∃ rest, (graph.renderSlot id).toList = '#' :: (toString id).toList ++ ' ' :: rest := by
    simp [renderSlot]
  have blankNot (number : Nat) : ' ' ∉ (toString number).toList := by
    intro member
    cases Text.isDigit_of_mem_toString member
  rw [IsLineOf, shape]
  constructor
  · rintro ⟨others, same⟩
    have parts
        : (toString other).toList ++ ' ' :: others = (toString id).toList ++ ' ' :: rest := by
      simpa using same
    have cuts := congrArg (Text.cut ' ') parts
    rw [Text.cut_append (blankNot other), Text.cut_append (blankNot id)] at cuts
    exact Text.toString_inj.mp (String.toList_inj.mp (Prod.mk.inj (Option.some.inj cuts)).1)
  · rintro rfl
    exact ⟨rest, by simp⟩

/-- One printed line is that of a reachable slot, as the slot is listed once. -/
theorem filter_isLineOf {graph : Graph} {id : Nat} (reached : id ∈ graph.reachable)
    : (graph.reachable.map graph.renderSlot).filter (fun line => IsLineOf id line)
      = [graph.renderSlot id] := by
  have own : (fun line => decide (IsLineOf id line)) ∘ graph.renderSlot = (· == id) := by
    funext other
    simp [isLineOf_renderSlot_iff, Bool.beq_eq_decide_eq, eq_comm]
  rw [List.filter_map, own, List.filter_beq,
    List.count_eq_one_of_mem graph.nodup_reachable reached]
  rfl

-----------------------------------------------------------------------------------------
-- Main statement
-----------------------------------------------------------------------------------------

/-- The search from the root of the graph comes to an end, and has entered these slots in order. -/
def SearchEnters (graph : Graph) (order : List Nat) : Prop :=
  ∃ marks, ⟨marks, order, []⟩ ∈ StateTransition.eval (Search.step graph) (.start graph)

theorem InRange.searchEnters {graph : Graph} (inRange : graph.InRange)
    : graph.SearchEnters graph.reachable := by
  have unmarked
      : Search.Marks graph (List.range graph.size) (List.replicate graph.size false) := by
    intro id inside
    simp [inside]
  obtain ⟨marks, searched⟩ := Search.reaches_enterAll inRange unmarked List.nodup_range
    (List.forall_mem_singleton.mpr inRange.1) []
  exact ⟨marks, StateTransition.mem_eval.mpr ⟨searched, rfl⟩⟩

theorem InRange.enters {graph : Graph} (inRange : graph.InRange)
    : Enters graph.next [] [graph.root] graph.reachable := by
  have complements : Complements graph.size (List.range graph.size) [] :=
    ⟨List.nodup_range, by simp⟩
  exact enters_enterAll complements (List.forall_mem_singleton.mpr inRange.1)
    fun _ _ successor => inRange.lt_size_of_mem_next successor

/-- On every graph whose edges stay inside it, the search with a stack comes to an end with the
reachable slots, in the order in which the recursive walk enters them: each of them once, the root
first, and all that a path from the root leads to. So the printed graph has one line of its own for
every slot that is named as a successor in one of its lines.
-/
theorem reachable_depthFirst {graph : Graph} (inRange : graph.InRange)
    : (∀ order, graph.SearchEnters order ↔ order = graph.reachable)
      ∧ (∀ order, Enters graph.next [] [graph.root] order ↔ order = graph.reachable)
      ∧ graph.reachable.Nodup
      ∧ graph.reachable.head? = some graph.root
      ∧ (∀ id, id ∈ graph.reachable ↔ Reaches graph.next graph.root id)
      ∧ graph.render = String.join ((graph.reachable.map graph.renderSlot).map (· ++ "\n"))
      ∧ ∀ source ∈ graph.reachable,
          ∀ target ∈ graph.next source,
            (graph.reachable.map graph.renderSlot).filter (fun line => IsLineOf target line)
              = [graph.renderSlot target] := by
  refine ⟨fun order => ⟨?_, ?_⟩, fun order => ⟨?_, ?_⟩, graph.nodup_reachable, ?_, ?_, ?_, ?_⟩
  · rintro ⟨marks, ended⟩
    obtain ⟨others, searched⟩ := inRange.searchEnters
    exact congrArg Search.order (Part.mem_unique ended searched)
  · rintro rfl
    exact inRange.searchEnters
  · exact fun walk => walk.unique inRange.enters
  · rintro rfl
    exact inRange.enters
  · exact inRange.enters.head?
  · exact fun id => inRange.mem_reachable_iff
  · rw [render, List.map_map]
    rfl
  · intro source reached target successor
    exact filter_isLineOf (inRange.mem_reachable_of_successor reached successor)

/-- A graph with a loop, a cycle, a repeated edge, and a slot that nothing leads to. -/
def loops : Graph where
  slots :=
    [⟨.start, 0, [2, 1, 2]⟩, ⟨.beat (.say "A" "One"), 1, [1, 3]⟩,
      ⟨.beat (.say "A" "Two"), 2, [0, 3, 1]⟩, ⟨.ending, 3, []⟩, ⟨.beat (.scene "Four"), 4, [0]⟩]
  root := 0

/-- The first slot waits on the stack from the beginning, but it is entered only behind the second
and the third.
-/
theorem loops_depthFirst
    : loops.InRange
      ∧ loops.SearchEnters [0, 2, 3, 1]
      ∧ Enters loops.next [] [0] [0, 2, 3, 1]
      ∧ (loops.reachable.map loops.renderSlot).filter (fun line => IsLineOf 1 line)
        = ["#1 (line 1): person_say | A | One -> [#1, #3]"] := by
  have inRange : loops.InRange := by decide
  have order : loops.reachable = [0, 2, 3, 1] := by decide +kernel
  obtain ⟨searches, enters, -, -, -, -, lines⟩ := reachable_depthFirst inRange
  refine ⟨inRange, (searches _).mpr order.symm, (enters _).mpr order.symm, ?_⟩
  rw [lines 2 (by rw [order]; decide) 1 (by decide)]
  decide +kernel

end Graph

end Dialogue
