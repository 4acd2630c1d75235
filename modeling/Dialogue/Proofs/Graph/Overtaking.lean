import Dialogue.Proofs.Graph.Preorder
import Dialogue.Proofs.Graph.Splicing

/-! Which of two slots comes first in depth-first preorder: not the earlier one, if the walk gets to
the later one by a branch that does not lead to the earlier one.
-/

namespace Dialogue

/-- A walk that takes these numbers from left to right gets to `late` by one of them when none that
it has taken so far leads to `early`, which a number further to the right does.
-/
def Favours (next : Nat → List Nat) (heads : List Nat) (late early : Nat) : Prop :=
  ∃ before left after,
    heads = before ++ left :: after
    ∧ Reaches next left late
    ∧ (∀ head ∈ before ++ [left], ¬ Reaches next head early)
    ∧ ∃ head ∈ after, Reaches next head early

/-- Among the successors of a reachable slot, one that leads to `late` comes before all that lead to
`early`.
-/
def Graph.Overtakes (graph : Graph) (late early : Nat) : Prop :=
  ∃ choice ∈ graph.reachable, Favours graph.next (graph.next choice) late early

/-- Of two items in this order in a list of two parts, both are in one part, or each is in its own.
-/
theorem sublist_append_cases {α : Type} {left right : α} {first second : List α}
    (ordered : [left, right].Sublist (first ++ second))
    : [left, right].Sublist first
      ∨ (left ∈ first ∧ right ∈ second)
      ∨ [left, right].Sublist second := by
  obtain ⟨start, stop, same, inFirst, inSecond⟩ := List.sublist_append_iff.mp ordered
  match start with
  | [] =>
      obtain rfl : [left, right] = stop := same
      exact Or.inr (Or.inr inSecond)
  | [_] =>
      obtain ⟨rfl, rfl⟩ := List.cons.inj same
      exact Or.inr (Or.inl ⟨inFirst.subset (by simp), inSecond.subset (by simp)⟩)
  | one :: other :: others =>
      obtain ⟨rfl, rfl, rfl, -⟩ : left = one ∧ right = other ∧ others = [] ∧ stop = [] := by
        simpa using same
      exact Or.inl inFirst

/-- Edges that all lead to larger numbers make paths that do. -/
theorem le_of_reaches {next : Nat → List Nat}
    (later : ∀ source, ∀ target ∈ next source, source < target) {source target : Nat}
    (path : Reaches next source target)
    : source ≤ target := by
  induction path with
  | refl => exact Nat.le_refl _
  | tail _ successor ih => exact Nat.le_trans ih (Nat.le_of_lt (later _ _ successor))

-----------------------------------------------------------------------------------------
-- All that can be reached is entered
-----------------------------------------------------------------------------------------

namespace Enters

variable {next : Nat → List Nat} {marked waiting order : List Nat}

theorem not_mem_marked (walk : Enters next marked waiting order) : ∀ id ∈ order, id ∉ marked := by
  induction walk with
  | done => exact List.forall_mem_nil _
  | passed _ _ ih => exact ih
  | entered fresh _ _ ihSuccessors ihLater =>
      refine List.forall_mem_append.mpr ⟨List.forall_mem_cons.mpr ⟨fresh, ?_⟩, ?_⟩
      · exact fun id member old => ihSuccessors id member (List.mem_cons_of_mem _ old)
      · exact fun id member old =>
          ihLater id member (List.mem_append_right _ (List.mem_cons_of_mem _ old))

/-- Whatever is entered lies on a path from a number that was waiting, by induction on the walk. -/
theorem exists_reaches (walk : Enters next marked waiting order)
    : ∀ id ∈ order, ∃ source ∈ waiting, Reaches next source id := by
  induction walk with
  | done => exact List.forall_mem_nil _
  | passed _ _ ih =>
      intro id member
      obtain ⟨source, isWaiting, path⟩ := ih id member
      exact ⟨source, List.mem_cons_of_mem _ isWaiting, path⟩
  | @entered marked first rest inner order fresh _ _ ihSuccessors ihLater =>
      refine List.forall_mem_append.mpr ⟨List.forall_mem_cons.mpr ⟨?_, ?_⟩, ?_⟩
      · exact ⟨first, List.mem_cons_self, .refl⟩
      · intro id member
        obtain ⟨source, successor, path⟩ := ihSuccessors id member
        exact ⟨first, List.mem_cons_self, .head successor path⟩
      · intro id member
        obtain ⟨source, isWaiting, path⟩ := ihLater id member
        exact ⟨source, List.mem_cons_of_mem _ isWaiting, path⟩

end Enters

section

variable {next : Nat → List Nat} {marked waiting rest inner order : List Nat} {id : Nat}

/-- Marked numbers that can be met again lead to marked numbers only. -/
def Shut (next : Nat → List Nat) (marked waiting : List Nat) : Prop :=
  ∀ source ∈ waiting,
    ∀ old ∈ marked, Reaches next source old → ∀ target, Reaches next old target → target ∈ marked

theorem shut_nil (next : Nat → List Nat) (waiting : List Nat) : Shut next [] waiting :=
  fun _ _ _ none => absurd none List.not_mem_nil

theorem Shut.tail (shut : Shut next marked (id :: rest)) : Shut next marked rest :=
  fun source isWaiting => shut source (List.mem_cons_of_mem _ isWaiting)

/-- When a number is entered, its successors do not lead back to it. -/
theorem Shut.enter (later : ∀ source, ∀ target ∈ next source, source < target)
    (shut : Shut next marked (id :: rest))
    : Shut next (id :: marked) (next id) := by
  intro source successor old member path target onward
  rcases List.mem_cons.mp member with rfl | member
  · have := later old source successor
    have := le_of_reaches later path
    omega
  · exact List.mem_cons_of_mem _
      (shut id List.mem_cons_self old member (.head successor path) target onward)

/-- When the walk comes back from a number, it has entered all that the number leads to. -/
theorem Shut.leave (shut : Shut next marked (id :: rest))
    (successors : Enters next (id :: marked) (next id) inner)
    (whole : ∀ target, Reaches next id target → target ∈ inner ++ id :: marked)
    : Shut next (inner ++ id :: marked) rest := by
  intro source isWaiting old member path target onward
  rcases List.mem_append.mp member with inside | member
  · obtain ⟨first, successor, before⟩ := successors.exists_reaches old inside
    exact whole target (.head successor (before.trans onward))
  · rcases List.mem_cons.mp member with rfl | member
    · exact whole target onward
    · have known := shut.tail source isWaiting old member path target onward
      exact List.mem_append_right _ (List.mem_cons_of_mem _ known)

theorem whole_of_successors
    (each : ∀ source ∈ next id,
      ∀ target, Reaches next source target → target ∈ inner ++ id :: marked)
    : ∀ target, Reaches next id target → target ∈ inner ++ id :: marked := by
  intro target path
  rcases path.cases_head with rfl | ⟨first, successor, onward⟩
  · simp
  · exact each first successor target onward

/-- The walk enters whatever the waiting numbers lead to, unless it is marked already. By induction
on the walk.
-/
theorem Enters.mem_of_reaches (walk : Enters next marked waiting order)
    (later : ∀ source, ∀ target ∈ next source, source < target) (shut : Shut next marked waiting)
    : ∀ source ∈ waiting, ∀ target, Reaches next source target → target ∈ order ++ marked := by
  induction walk with
  | done => exact List.forall_mem_nil _
  | passed old _ ih =>
      refine List.forall_mem_cons.mpr ⟨fun target path => ?_, ih shut.tail⟩
      exact List.mem_append_right _ (shut _ List.mem_cons_self _ old .refl target path)
  | @entered marked id rest inner order _ successors _ ihSuccessors ihLater =>
      have whole := whole_of_successors (ihSuccessors (shut.enter later))
      have same : (order ++ (inner ++ id :: marked)).Perm (id :: inner ++ order ++ marked) := by
        rw [← List.append_assoc]
        exact List.perm_middle.trans (.cons id (.append_right marked List.perm_append_comm))
      refine List.forall_mem_cons.mpr ⟨fun target path => ?_, ?_⟩
      · exact same.subset (List.mem_append_right order (whole target path))
      · intro source isWaiting target path
        exact same.subset (ihLater (shut.leave successors whole) source isWaiting target path)

/-- All that a number leads to is entered or marked when the walk comes back from it. -/
theorem Enters.whole (successors : Enters next (id :: marked) (next id) inner)
    (later : ∀ source, ∀ target ∈ next source, source < target)
    (shut : Shut next marked (id :: rest))
    : ∀ target, Reaches next id target → target ∈ inner ++ id :: marked :=
  whole_of_successors (successors.mem_of_reaches later (shut.enter later))

end

-----------------------------------------------------------------------------------------
-- Where the walk turns to the later slot
-----------------------------------------------------------------------------------------

/-- Putting a number in front that does not lead to `early` leaves open how the walk gets to `late`.
-/
theorem Favours.cons {next : Nat → List Nat} {heads : List Nat} {late early head : Nat}
    (favours : Favours next heads late early) (apart : ¬ Reaches next head early)
    : Favours next (head :: heads) late early := by
  obtain ⟨before, left, after, rfl, onward, avoids, other⟩ := favours
  exact ⟨head :: before, left, after, rfl, onward, List.forall_mem_cons.mpr ⟨apart, avoids⟩, other⟩

/-- If a walk enters `late` before `early`, to which it does not lead, one of the waiting numbers or
of the successors of an entered one leads to `late` and stands before all that lead to `early`. By
induction on the walk and cases on which part of it enters either.
-/
theorem Enters.favours_of_sublist {next : Nat → List Nat} {marked waiting order : List Nat}
    (walk : Enters next marked waiting order)
    (later : ∀ source, ∀ target ∈ next source, source < target) (shut : Shut next marked waiting)
    {late early : Nat} (first : [late, early].Sublist order) (apart : ¬ Reaches next late early)
    : Favours next waiting late early
      ∨ ∃ choice ∈ order, Favours next (next choice) late early := by
  induction walk with
  | done => cases first
  | @passed marked id rest order old walk ih =>
      rcases ih shut.tail first with favours | inside
      · have fresh := walk.not_mem_marked early (first.subset (by simp))
        have known := shut id List.mem_cons_self id old .refl
        exact Or.inl (favours.cons fun path => fresh (known early path))
      · exact Or.inr inside
  | @entered marked id rest inner order fresh successors walk ihSuccessors ihLater =>
      have whole := successors.whole later shut
      -- what the walk enters after coming back from `id` is not reached from there
      have avoids (behind : early ∈ order) : ¬ Reaches next id early :=
        fun path => walk.not_mem_marked early behind (whole early path)
      have turns (behind : early ∈ order) (onward : Reaches next id late)
          : Favours next (id :: rest) late early :=
        ⟨[], id, rest, rfl, onward, List.forall_mem_singleton.mpr (avoids behind),
          walk.exists_reaches early behind⟩
      have inside {choice : Nat} (member : choice ∈ inner ∨ choice ∈ order)
          (favours : Favours next (next choice) late early)
          : ∃ choice ∈ id :: inner ++ order, Favours next (next choice) late early :=
        ⟨choice, by simp [member], favours⟩
      rw [List.cons_append, List.sublist_cons_iff] at first
      rcases first with first | ⟨others, same, first⟩
      · rcases sublist_append_cases first with inInner | ⟨inInner, inOrder⟩ | inOrder
        · rcases ihSuccessors (shut.enter later) inInner with favours | ⟨choice, member, favours⟩
          · exact Or.inr ⟨id, by simp, favours⟩
          · exact Or.inr (inside (Or.inl member) favours)
        · obtain ⟨source, successor, path⟩ := successors.exists_reaches late inInner
          exact Or.inl (turns inOrder (.head successor path))
        · rcases ihLater (shut.leave successors whole) inOrder with
            favours | ⟨choice, member, favours⟩
          · exact Or.inl (favours.cons (avoids (inOrder.subset (by simp))))
          · exact Or.inr (inside (Or.inr member) favours)
      · obtain ⟨rfl, rfl⟩ := List.cons.inj same
        rcases List.mem_append.mp (List.singleton_sublist.mp first) with inInner | inOrder
        · obtain ⟨source, successor, path⟩ := successors.exists_reaches early inInner
          exact absurd (.head successor path) apart
        · exact Or.inl (turns inOrder .refl)

-----------------------------------------------------------------------------------------
-- Where the walk is bound to turn
-----------------------------------------------------------------------------------------

namespace Enters

variable {next : Nat → List Nat} {marked waiting order : List Nat}

/-- Numbers to which only one number leads from outside are entered after it, by induction on the
walk.
-/
theorem gate_before (walk : Enters next marked waiting order) {gate : Nat} {within : Nat → Prop}
    (start : ∀ id ∈ waiting, ¬ within id)
    (outside : ∀ source ∈ order,
      ¬ within source → source ≠ gate → ∀ target ∈ next source, ¬ within target)
    : ∀ id ∈ order, within id → [gate, id].Sublist order := by
  induction walk with
  | done => exact List.forall_mem_nil _
  | passed _ _ ih => exact ih (List.forall_mem_cons.mp start).2 outside
  | @entered marked first rest inner order _ _ _ ihSuccessors ihLater =>
      obtain ⟨firstNot, restNot⟩ := List.forall_mem_cons.mp start
      rw [List.cons_append] at outside ⊢
      obtain ⟨edges, outside⟩ := List.forall_mem_cons.mp outside
      obtain ⟨inInner, inOrder⟩ := List.forall_mem_append.mp outside
      intro id entered inside
      rcases List.mem_cons.mp entered with rfl | behind
      · exact absurd inside firstNot
      by_cases here : first = gate
      · exact here ▸ .cons_cons first (List.singleton_sublist.mpr behind)
      rcases List.mem_append.mp behind with member | member
      · have ordered := ihSuccessors (edges firstNot here) inInner id member inside
        exact (ordered.trans (List.sublist_append_left inner order)).cons first
      · have ordered := ihLater restNot inOrder id member inside
        exact (ordered.trans (List.sublist_append_right inner order)).cons first

/-- A number that is entered is followed by what the walk enters from its successors, and by then
exactly what comes before it is marked. By induction on the walk.
-/
theorem exists_inner (walk : Enters next marked waiting order)
    (later : ∀ source, ∀ target ∈ next source, source < target) (shut : Shut next marked waiting)
    {id : Nat} (entered : id ∈ order)
    : ∃ before inner after marks,
        order = before ++ id :: (inner ++ after)
        ∧ (∀ other, other ∈ marks ↔ other ∈ before ∨ other ∈ marked)
        ∧ Enters next (id :: marks) (next id) inner
        ∧ Shut next (id :: marks) (next id) := by
  induction walk with
  | done => cases entered
  | passed _ _ ih => exact ih shut.tail entered
  | @entered marked first rest inner order _ successors walk ihSuccessors ihLater =>
      rw [List.cons_append, List.mem_cons, List.mem_append] at entered
      rcases entered with rfl | inInner | inOrder
      · exact ⟨[], inner, order, marked, rfl, by simp, successors, shut.enter later⟩
      · obtain ⟨before, within, after, marks, rfl, known, inWalk, inShut⟩ :=
          ihSuccessors (shut.enter later) inInner
        refine ⟨first :: before, within, after ++ order, marks, by simp, ?_, inWalk, inShut⟩
        intro other
        rw [known]
        simp only [List.mem_cons, or_left_comm, or_assoc]
      · have whole := successors.whole later shut
        obtain ⟨before, within, after, marks, rfl, known, inWalk, inShut⟩ :=
          ihLater (shut.leave successors whole) inOrder
        refine ⟨first :: inner ++ before, within, after, marks, by simp, ?_, inWalk, inShut⟩
        intro other
        rw [known]
        simp only [List.mem_cons, List.mem_append, or_left_comm, or_assoc]

end Enters

namespace Graph

/-- No edge leads from the reachable slots before `low` into those between `low` and `high`, and all
edges that lead out of these lead to the same slot.
-/
structure Encloses (graph : Graph) (low high : Nat) : Prop where
  inside : low < high
  entry
    : ∀ source ∈ graph.reachable,
        source < low → ∀ target ∈ graph.next source, target ≤ low ∨ high ≤ target
  exit
    : ∃ exit,
        ∀ source ∈ graph.reachable,
          low ≤ source
          → source < high
          → ∀ target ∈ graph.next source, target < high ∨ target = exit

theorem Forward.lt_of_mem_next {graph : Graph} (forward : graph.Forward)
    : ∀ source, ∀ target ∈ graph.next source, source < target :=
  fun source target successor => (forward source target successor).1

/-- A path that leads to or behind `high` crosses it by one edge, by induction on the path from its
end.
-/
theorem exists_crossing {graph : Graph} {source target high : Nat}
    (path : Reaches graph.next source target) (before : source < high) (behind : high ≤ target)
    : ∃ last first,
        Reaches graph.next source last
        ∧ last < high
        ∧ first ∈ graph.next last
        ∧ high ≤ first
        ∧ Reaches graph.next first target := by
  induction path using Relation.ReflTransGen.head_induction_on with
  | refl => omega
  | @head source middle successor path ih =>
      rcases Nat.lt_or_ge middle high with stays | crosses
      · obtain ⟨last, first, toLast, lastBefore, edge, firstBehind, onward⟩ := ih stays
        exact ⟨last, first, .head successor toLast, lastBefore, edge, firstBehind, onward⟩
      · exact ⟨source, middle, .refl, before, successor, crosses, path⟩

section

variable {graph : Graph} {choice high late early : Nat} (forward : graph.Forward)
  (inRange : graph.InRange) (encloses : graph.Encloses choice high)
  (reached : choice ∈ graph.reachable)

include forward inRange encloses reached

/-- All paths from a choice that leave its block do so for the same slot. -/
theorem Encloses.exists_exit
    : ∃ exit,
        ∀ head ∈ graph.next choice,
          ∀ target,
            Reaches graph.next head target
            → high ≤ target
            → Reaches graph.next head exit ∧ Reaches graph.next exit target := by
  obtain ⟨exit, leads⟩ := encloses.exit
  refine ⟨exit, fun head successor target path behind => ?_⟩
  rcases Nat.lt_or_ge head high with within | outside
  · obtain ⟨last, first, toLast, before, edge, crosses, onward⟩ :=
      exists_crossing path within behind
    have lastReached : last ∈ graph.reachable := by
      rw [inRange.mem_reachable_iff] at reached ⊢
      exact reached.trans (.head successor toLast)
    have low := (forward _ _ successor).1
    have := le_of_reaches forward.lt_of_mem_next toLast
    rcases leads last lastReached (by omega) before first edge with stays | rfl
    · omega
    · exact ⟨toLast.tail edge, onward⟩
  · rcases leads choice reached (Nat.le_refl _) encloses.inside head successor with stays | rfl
    · omega
    · exact ⟨.refl, path⟩

/-- Where the walk turns to a later slot before an earlier one, the earlier one is in the block. -/
theorem Encloses.lt_of_favours (favours : Favours graph.next (graph.next choice) late early)
    (lt : early < late)
    : choice < early ∧ early < high := by
  obtain ⟨before, left, after, edges, toLate, avoids, right, rightIn, toEarly⟩ := favours
  have leftNext : left ∈ graph.next choice := by simp [edges]
  have rightNext : right ∈ graph.next choice := by simp [edges, rightIn]
  have afterChoice := (forward _ _ rightNext).1
  have := le_of_reaches forward.lt_of_mem_next toEarly
  refine ⟨by omega, ?_⟩
  -- otherwise both paths leave the block, and go on from the same slot
  by_contra behind
  obtain ⟨exit, leaves⟩ := encloses.exists_exit forward inRange reached
  obtain ⟨toExit, -⟩ := leaves left leftNext late toLate (by omega)
  obtain ⟨-, onward⟩ := leaves right rightNext early toEarly (by omega)
  exact avoids left (by simp) (toExit.trans onward)

/-- The slots of a block come after its choice in preorder. -/
theorem Encloses.sublist_of_inside {id : Nat} (entered : id ∈ graph.reachable) (low : choice < id)
    (inside : id < high)
    : [choice, id].Sublist graph.reachable := by
  have gated
      : ∀ id ∈ graph.reachable,
          choice < id ∧ id < high → [choice, id].Sublist graph.reachable := by
    refine inRange.enters.gate_before (List.forall_mem_singleton.mpr ?_) ?_
    · have := le_of_reaches forward.lt_of_mem_next (inRange.mem_reachable_iff.mp reached)
      omega
    · intro source sourceReached sourceNot different target successor
      have := (forward _ _ successor).1
      rcases Nat.lt_or_ge source choice with before | behind
      · have := encloses.entry source sourceReached before target successor
        omega
      · omega
  exact gated id entered ⟨low, inside⟩

/-- The walk has not entered a slot of a block when it comes to the choice. -/
theorem Encloses.not_mem_start {start rest : List Nat}
    (order : graph.reachable = start ++ choice :: rest) {id : Nat} (entered : id ∈ graph.reachable)
    (low : choice < id) (inside : id < high)
    : id ∉ start := by
  have gated := encloses.sublist_of_inside forward inRange reached entered low inside
  have distinct := graph.nodup_reachable
  rw [order] at gated distinct
  obtain ⟨-, -, apart⟩ := List.nodup_append.mp distinct
  intro member
  rcases sublist_append_cases gated with both | ⟨first, -⟩ | both
  · exact apart choice (both.subset (by simp)) choice (by simp) rfl
  · exact apart choice first choice (by simp) rfl
  · exact apart id member id (both.subset (by simp)) rfl

/-- Where the walk turns to a later slot before an earlier one, it enters the later one first: the
earlier one waits until the walk comes to the branches further to the right.
-/
theorem Encloses.sublist_of_favours (favours : Favours graph.next (graph.next choice) late early)
    (lt : early < late)
    : [late, early].Sublist graph.reachable := by
  obtain ⟨low, inside⟩ := encloses.lt_of_favours forward inRange reached favours lt
  obtain ⟨before, left, after, edges, toLate, avoids, right, rightIn, toEarly⟩ := favours
  have later := forward.lt_of_mem_next
  have earlyReached : early ∈ graph.reachable := by
    rw [inRange.mem_reachable_iff] at reached ⊢
    exact reached.trans (.head (by simp [edges, rightIn]) toEarly)
  obtain ⟨start, inner, stop, marks, order, known, walk, shut⟩ :=
    inRange.enters.exists_inner later (shut_nil _ _) reached
  simp only [List.not_mem_nil, or_false] at known
  have earlyNot :=
    encloses.not_mem_start forward inRange reached order earlyReached low inside
  -- what the walk enters from the choice comes from the branches up to `left`, then from the others
  rw [edges, List.append_cons] at walk shut
  obtain ⟨first, second, rfl, turned, -⟩ := walk.split
  have lateIn : late ∈ start ++ choice :: first := by
    have shutLeft : Shut graph.next (choice :: marks) (before ++ [left]) :=
      fun source member => shut source (List.mem_append_left _ member)
    have entered := turned.mem_of_reaches later shutLeft left (by simp) late toLate
    simp only [List.mem_append, List.mem_cons, known] at entered ⊢
    rcases entered with behind | here | before
    · exact Or.inr (Or.inr behind)
    · exact Or.inr (Or.inl here)
    · exact Or.inl before
  have earlyIn : early ∈ second := by
    have entered := walk.mem_of_reaches later shut right (by simp [rightIn]) early toEarly
    have firstNot : early ∉ first := by
      intro member
      obtain ⟨head, isHead, path⟩ := turned.exists_reaches early member
      exact avoids head isHead path
    simp only [List.mem_append, List.mem_cons, known] at entered
    rcases entered with (inFirst | inSecond) | here | before
    · exact absurd inFirst firstNot
    · exact inSecond
    · exact absurd here (Nat.ne_of_gt low)
    · exact absurd before earlyNot
  have shape : graph.reachable = (start ++ choice :: first) ++ (second ++ stop) := by
    simp [order]
  rw [shape]
  exact (List.singleton_sublist.mpr lateIn).append
    (List.singleton_sublist.mpr (List.mem_append_left stop earlyIn))

end

/-- Where every choice encloses a block, the later one of two slots comes first in preorder exactly
if it overtakes the earlier one.
-/
theorem Forward.sublist_reachable_iff {graph : Graph} (forward : graph.Forward)
    (inRange : graph.InRange)
    (blocks : ∀ choice ∈ graph.reachable,
      1 < (graph.next choice).length → ∃ high, graph.Encloses choice high)
    {late early : Nat} (lt : early < late)
    : [late, early].Sublist graph.reachable ↔ graph.Overtakes late early := by
  constructor
  · intro first
    have apart : ¬ Reaches graph.next late early := by
      intro path
      have := le_of_reaches forward.lt_of_mem_next path
      omega
    rcases inRange.enters.favours_of_sublist forward.lt_of_mem_next (shut_nil _ _) first apart with
      ⟨before, left, after, single, -, -, right, rightIn, -⟩ | overtakes
    · -- no number waits behind the root
      obtain ⟨rfl, rfl, rfl⟩ : before = [] ∧ graph.root = left ∧ after = [] := by
        cases before <;> simp_all
      cases rightIn
    · exact overtakes
  · rintro ⟨choice, reached, favours⟩
    have many : 1 < (graph.next choice).length := by
      obtain ⟨before, left, after, edges, -, -, right, rightIn, -⟩ := favours
      have := List.length_pos_of_mem rightIn
      simp [edges]
      omega
    obtain ⟨high, encloses⟩ := blocks choice reached many
    exact encloses.sublist_of_favours forward inRange reached favours lt

end Graph

end Dialogue
