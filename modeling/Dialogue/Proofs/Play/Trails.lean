import Dialogue.Proofs.Play.Effects

/-! Trails: the choices that are met on the way from a node to the next one that can be presented,
each with what is decided there. Only the graph ends a trail, since the memory stays what it is: no
choice is met twice where no cycle is made of choices alone.
-/

namespace Dialogue

open Relation

-----------------------------------------------------------------------------------------
-- Decisions
-----------------------------------------------------------------------------------------

namespace Memory

variable {memory : Memory} {guards : List Guard} {successors : List Nat} {branch : Nat}
  {decision : Decision}

/-- The first of the guards that holds has this number, counted from 0. -/
def FirstHolds (memory : Memory) (guards : List Guard) (branch : Nat) : Prop :=
  ∃ guard,
    guards[branch]? = some guard
    ∧ memory.satisfies guard = true
    ∧ ∀ earlier other,
        earlier < branch → guards[earlier]? = some other → memory.satisfies other = false

/-- What is decided at a choice with these guards and successors. -/
inductive Decides (memory : Memory) (guards : List Guard) (successors : List Nat)
    : Decision → Prop where
  /-- There is a successor in the place of the first guard that holds. -/
  | picked {branch target} (first : memory.FirstHolds guards branch)
    (there : successors[branch]? = some target)
    : Decides memory guards successors ⟨branch, target, false⟩
  /-- There is none, or no guard holds, and the last successor is taken. -/
  | fallback {target}
    (unpicked : ∀ branch, memory.FirstHolds guards branch → successors[branch]? = none)
    (last : successors.getLast? = some target)
    : Decides memory guards successors ⟨successors.length - 1, target, true⟩

theorem findIdx?_satisfies_eq_some_iff
    : guards.findIdx? memory.satisfies = some branch ↔ memory.FirstHolds guards branch := by
  rw [List.findIdx?_eq_some_iff_getElem, FirstHolds]
  constructor
  · rintro ⟨inside, holds, before⟩
    refine ⟨_, List.getElem?_eq_getElem inside, holds, fun earlier other lower found => ?_⟩
    obtain ⟨_, rfl⟩ := List.getElem?_eq_some_iff.mp found
    simpa using before earlier lower
  · rintro ⟨guard, found, holds, before⟩
    obtain ⟨inside, rfl⟩ := List.getElem?_eq_some_iff.mp found
    refine ⟨inside, holds, fun earlier lower => ?_⟩
    simpa using before earlier _ lower (List.getElem?_eq_getElem (lower.trans inside))

/-- Some guard is the first that holds unless none does. -/
theorem exists_firstHolds {guard : Guard} (member : guard ∈ guards)
    (holds : memory.satisfies guard = true)
    : ∃ branch < guards.length, memory.FirstHolds guards branch := by
  cases found : guards.findIdx? memory.satisfies with
  | none =>
      have fails := List.findIdx?_eq_none_iff.mp found guard member
      simp [holds] at fails
  | some branch =>
      obtain ⟨inside, -⟩ := List.findIdx?_eq_some_iff_getElem.mp found
      exact ⟨branch, inside, findIdx?_satisfies_eq_some_iff.mp found⟩

/-- The successor in the place of the first guard that holds is what is looked for first. -/
theorem picked_eq_some_iff
    : ((guards.findIdx? memory.satisfies).bind fun branch =>
          successors[branch]?.map fun target => Decision.mk branch target false)
        = some decision
      ↔ ∃ branch target,
          memory.FirstHolds guards branch
          ∧ successors[branch]? = some target
          ∧ decision = ⟨branch, target, false⟩ := by
  simp only [Option.bind_eq_some_iff, Option.map_eq_some_iff, findIdx?_satisfies_eq_some_iff]
  constructor
  · rintro ⟨branch, first, target, there, rfl⟩
    exact ⟨branch, target, first, there, rfl⟩
  · rintro ⟨branch, target, first, there, rfl⟩
    exact ⟨branch, first, target, there, rfl⟩

theorem decide?_eq_some_iff
    : memory.decide? guards successors = some decision
      ↔ memory.Decides guards successors decision := by
  have unpicked
      : ((guards.findIdx? memory.satisfies).bind fun branch =>
            successors[branch]?.map fun target => Decision.mk branch target false)
          = none
        ↔ ∀ branch, memory.FirstHolds guards branch → successors[branch]? = none := by
    rw [Option.bind_eq_none_iff]
    simp only [Option.map_eq_none_iff, findIdx?_satisfies_eq_some_iff]
  simp only [decide?, Option.or_eq_some_iff, picked_eq_some_iff, unpicked, Option.map_eq_some_iff]
  constructor
  · rintro (⟨branch, target, first, there, rfl⟩ | ⟨none, target, last, rfl⟩)
    · exact .picked first there
    · exact .fallback none last
  · rintro (⟨first, there⟩ | ⟨none, last⟩)
    · exact Or.inl ⟨_, _, first, there, rfl⟩
    · exact Or.inr ⟨none, _, last, rfl⟩

theorem Decides.unique {other : Decision} (left : memory.Decides guards successors decision)
    (right : memory.Decides guards successors other)
    : decision = other := by
  rw [← decide?_eq_some_iff] at left right
  exact Option.some.inj (left.symm.trans right)

/-- Where there is a successor for every guard, the last one is taken only if no guard holds. -/
theorem Decides.satisfies_eq_false (decides : memory.Decides guards successors decision)
    (enough : guards.length ≤ successors.length) (fallback : decision.fallback = true)
    : ∀ guard ∈ guards, memory.satisfies guard = false := by
  intro guard member
  cases decides with
  | picked first there => cases fallback
  | fallback unpicked last =>
      refine Bool.eq_false_iff.mpr fun holds => ?_
      obtain ⟨branch, inside, first⟩ := exists_firstHolds member holds
      have outside := List.getElem?_eq_none_iff.mp (unpicked branch first)
      omega

end Memory

-----------------------------------------------------------------------------------------
-- Trails
-----------------------------------------------------------------------------------------

namespace Graph

def IsChoice (graph : Graph) (id : Nat) : Prop :=
  ∃ guards, graph.node id = .choice guards

/-- From the node `id` on these decisions are taken, each at the choice of its number, and `last` is
where there is nothing more to decide.
-/
inductive Trail (graph : Graph) (memory : Memory) : Nat → List (Nat × Decision) → Nat → Prop where
  /-- The node is no choice. -/
  | found {id} (plain : ¬ graph.IsChoice id) : Trail graph memory id [] id
  /-- The node is a choice that has no successors. -/
  | stuck {id} (choice : graph.IsChoice id) (leads : graph.next id = [])
    : Trail graph memory id [] id
  /-- The node is a choice, which is left for the successor that is decided for. -/
  | goesOn {id guards decision decisions last} (choice : graph.node id = .choice guards)
    (decides : memory.Decides guards (graph.next id) decision)
    (onward : Trail graph memory decision.target decisions last)
    : Trail graph memory id ((id, decision) :: decisions) last

/-- The nodes on a trail, in order. -/
def visits (decisions : List (Nat × Decision)) (last : Nat) : List Nat :=
  decisions.map Prod.fst ++ [last]

variable {graph : Graph} {memory : Memory} {id last : Nat} {decisions : List (Nat × Decision)}

/-- Nothing is decided at a choice without successors. -/
theorem not_decides_nil {guards : List Guard} {decision : Decision}
    : ¬ memory.Decides guards [] decision := by
  rw [← Memory.decide?_eq_some_iff]
  simp [Memory.decide?]

namespace Trail

/-- There is one trail at most, by induction on one and cases on the other. -/
theorem unique {others : List (Nat × Decision)} {other : Nat}
    (left : graph.Trail memory id decisions last) (right : graph.Trail memory id others other)
    : decisions = others ∧ last = other := by
  induction left generalizing others other with
  | found plain =>
      cases right with
      | found _ | stuck _ _ => exact ⟨rfl, rfl⟩
      | goesOn choice _ _ => exact absurd ⟨_, choice⟩ plain
  | stuck _ leads =>
      cases right with
      | found _ | stuck _ _ => exact ⟨rfl, rfl⟩
      | goesOn _ decides _ =>
          rw [leads] at decides
          exact absurd decides not_decides_nil
  | goesOn choice decides _ ih =>
      cases right with
      | found plain => exact absurd ⟨_, choice⟩ plain
      | stuck _ leads =>
          rw [leads] at decides
          exact absurd decides not_decides_nil
      | goesOn again redecides onward =>
          obtain rfl := Node.choice.inj (choice.symm.trans again)
          obtain rfl := decides.unique redecides
          obtain ⟨rfl, rfl⟩ := ih onward
          exact ⟨rfl, rfl⟩

theorem forksTo {guards : List Guard} {decision : Decision}
    (choice : graph.node id = .choice guards)
    (decides : memory.Decides guards (graph.next id) decision)
    : graph.ForksTo id decision.target :=
  ⟨⟨guards, choice⟩, Memory.target_mem_of_decide? (Memory.decide?_eq_some_iff.mpr decides)⟩

/-- Every node on a trail is reached from its first node through choices alone. -/
theorem reaches (trail : graph.Trail memory id decisions last)
    : ∀ visited ∈ visits decisions last, ReflTransGen graph.ForksTo id visited := by
  induction trail with
  | found _ | stuck _ _ => simp [visits, ReflTransGen.refl]
  | goesOn choice decides _ ih =>
      intro visited member
      rcases List.mem_cons.mp member with rfl | later
      · exact .refl
      · exact .head (forksTo choice decides) (ih visited later)

/-- No node comes up twice on a trail, since it would be on a cycle of choices. By induction on the
trail.
-/
theorem nodup (trail : graph.Trail memory id decisions last) (noCycle : graph.NoChoiceCycle)
    : (visits decisions last).Nodup := by
  induction trail with
  | found _ | stuck _ _ => simp [visits]
  | goesOn choice decides onward ih =>
      refine List.nodup_cons.mpr ⟨fun again => ?_, ih⟩
      exact noCycle _ (.head' (forksTo choice decides) (onward.reaches _ again))

theorem lt_size (trail : graph.Trail memory id decisions last) (inRange : graph.InRange)
    (inside : id < graph.size)
    : ∀ visited ∈ visits decisions last, visited < graph.size := by
  intro visited member
  cases (trail.reaches visited member).cases_tail with
  | inl same => rwa [same]
  | inr path =>
      obtain ⟨_, -, -, successor⟩ := path
      exact inRange.lt_size_of_mem_next successor

/-- The choices of the decisions are choices, which lead to where they are decided. -/
theorem decides (trail : graph.Trail memory id decisions last)
    : ∀ entry ∈ decisions,
        ∃ guards,
          graph.node entry.1 = .choice guards
          ∧ memory.Decides guards (graph.next entry.1) entry.2 := by
  induction trail with
  | found _ | stuck _ _ => simp
  | goesOn choice decides _ ih => exact List.forall_mem_cons.mpr ⟨⟨_, choice, decides⟩, ih⟩

/-- A trail ends at a node that is no choice or that leads nowhere. -/
theorem leads (trail : graph.Trail memory id decisions last) (choice : graph.IsChoice last)
    : graph.next last = [] := by
  induction trail with
  | found plain => exact absurd choice plain
  | stuck _ leads => exact leads
  | goesOn _ _ _ ih => exact ih choice

open Classical in
/-- A route takes the decisions of a trail as long as none of its choices counts as met. By
induction on the trail.
-/
theorem routeFrom (trail : graph.Trail memory id decisions last) {unseen : List Nat}
    (distinct : (visits decisions last).Nodup)
    (fresh : ∀ visited ∈ decisions.map Prod.fst, visited ∈ unseen)
    : graph.routeFrom memory unseen id
        = (decisions, if graph.IsChoice last then none else some last) := by
  induction trail generalizing unseen with
  | found plain =>
      rw [if_neg plain]
      exact routeFrom_of_not_choice fun guards found => plain ⟨guards, found⟩
  | stuck choice leads =>
      rw [if_pos choice]
      obtain ⟨guards, found⟩ := choice
      exact routeFrom_undecided found (by rw [leads]; simp [Memory.decide?])
  | @goesOn id guards decision decisions last choice decides onward ih =>
      obtain ⟨freshHere, freshLater⟩ := List.forall_mem_cons.mp fresh
      obtain ⟨notAgain, distinctLater⟩ := List.nodup_cons.mp distinct
      rw [routeFrom_decided choice freshHere (Memory.decide?_eq_some_iff.mpr decides),
        ih distinctLater]
      intro visited later
      refine (List.mem_erase_of_ne ?_).mpr (freshLater visited later)
      rintro rfl
      exact notAgain (List.mem_append_left _ later)

end Trail

/-- Following choices to where it comes to an end leaves a trail, by induction on the path. -/
theorem EndsAt.exists_trail {resolved : Option Nat} (ends : graph.EndsAt memory id last resolved)
    : ∃ decisions, graph.Trail memory id decisions last := by
  obtain ⟨path, here⟩ := ends
  induction path using ReflTransGen.head_induction_on with
  | refl =>
      refine ⟨[], ?_⟩
      rcases here with ⟨plain, -⟩ | ⟨choice, leads, -⟩
      · exact .found fun ⟨guards, found⟩ => plain guards found
      · exact .stuck choice leads
  | head step _ ih =>
      obtain ⟨decisions, onward⟩ := ih
      obtain ⟨guards, decision, found, decided, rfl⟩ := step
      exact ⟨_, .goesOn found (Memory.decide?_eq_some_iff.mp decided) onward⟩

-----------------------------------------------------------------------------------------
-- Main statement
-----------------------------------------------------------------------------------------

/-- On every graph without cycles of choices whose edges stay inside it, a trail leads from every
slot through choices that are met once each. What is resolved is the node at its end, or nothing if
that is a choice without successors, and the decisions are those that the trail takes. Where a
choice has a successor for every guard, the last one is taken only if no guard holds.
-/
theorem resolve_exact (inRange : graph.InRange) (noCycle : graph.NoChoiceCycle) (memory : Memory)
    (inside : id < graph.size)
    : ∃ decisions last,
        (∀ others other,
          graph.Trail memory id others other ↔ others = decisions ∧ other = last)
        ∧ (visits decisions last).Nodup
        ∧ (∀ visited ∈ visits decisions last, visited < graph.size)
        ∧ graph.route memory id = (decisions, graph.resolve memory id)
        ∧ (∀ target, graph.resolve memory id = some target ↔ target = last ∧ ¬ graph.IsChoice last)
        ∧ (graph.resolve memory id = none ↔ graph.IsChoice last ∧ graph.next last = [])
        ∧ ∀ entry ∈ decisions,
            ∃ guards,
              graph.node entry.1 = .choice guards
              ∧ memory.Decides guards (graph.next entry.1) entry.2
              ∧ (guards.length ≤ (graph.next entry.1).length
                  → entry.2.fallback = true
                  → ∀ guard ∈ guards, memory.satisfies guard = false) := by
  obtain ⟨last, ends⟩ := noCycle.exists_endsAt memory id
  obtain ⟨decisions, trail⟩ := ends.exists_trail
  have distinct := trail.nodup noCycle
  have within := trail.lt_size inRange inside
  have route : graph.route memory id = _ :=
    trail.routeFrom distinct fun visited member =>
      mem_ids.mpr (within visited (List.mem_append_left _ member))
  have resolved : graph.resolve memory id = _ := congrArg Prod.snd route
  refine ⟨decisions, last, fun others other => ⟨fun again => ?_, ?_⟩, distinct, within, ?_, ?_, ?_,
    ?_⟩
  · exact again.unique trail
  · rintro ⟨rfl, rfl⟩
    exact trail
  · rw [route, resolved]
  · intro target
    rw [resolved]
    split
    · next choice => simp [choice]
    · next plain => simp [plain, eq_comm]
  · rw [resolved]
    split
    · next choice => simp [choice, trail.leads choice]
    · next plain => simp [plain]
  · intro entry member
    obtain ⟨guards, choice, decides⟩ := trail.decides entry member
    exact ⟨guards, choice, decides, fun enough => decides.satisfies_eq_false enough⟩

/-- A choice with more guards than successors, one without guards, one without successors, and a way
back to the first of them over what is said.
-/
def junctions : Graph where
  slots :=
    [⟨.start, 0, [1]⟩, ⟨.choice [⟨"pick", 0⟩, ⟨"pick", 1⟩, ⟨"mood", 1⟩], 2, [2, 3]⟩,
      ⟨.choice [], 3, [3, 4]⟩, ⟨.choice [⟨"mood", 0⟩], 4, []⟩, ⟨.beat (.say "A" "On"), 5, [1]⟩]
  root := 0

/-- Only what is said leads back. -/
theorem noChoiceCycle_junctions : junctions.NoChoiceCycle := by
  have later : ∀ source < 5, ∀ target ∈ junctions.next source, source < target ∨ source = 4 := by
    decide
  have ordered (source target : Nat) (step : junctions.ForksTo source target)
      : source < target := by
    obtain ⟨⟨guards, found⟩, successor⟩ := step
    rcases later source (lt_size_of_mem_next successor) target successor with before | rfl
    · exact before
    · nomatch found
  intro id cycle
  have below : TransGen (· < ·) id id := TransGen.mono ordered _ _ cycle
  rw [transGen_eq_self] at below
  exact Nat.lt_irrefl id below

/-- Nothing is answered yet. -/
def unanswered : Memory :=
  Memory.empty.declare "pick"

/-- Both options are answered. Of the guards of the first choice only the third holds. -/
def answered : Memory :=
  (Memory.empty.record "mood" 0).record "pick" 5

/-- Before the answers, the first guard and then the lack of guards lead to what is said. With them,
the guard that holds has no successor in its place, and the last successor leads nowhere.
-/
theorem junctions_resolve
    : junctions.InRange
      ∧ junctions.NoChoiceCycle
      ∧ 1 < junctions.size
      ∧ junctions.Trail unanswered 1 [(1, ⟨0, 2, false⟩), (2, ⟨1, 4, true⟩)] 4
      ∧ junctions.resolve unanswered 1 = some 4
      ∧ answered.satisfies ⟨"mood", 1⟩ = true
      ∧ junctions.resolve answered 1 = none
      ∧ ∃ last,
          junctions.Trail answered 1 [(1, ⟨1, 3, true⟩)] last
          ∧ junctions.IsChoice last
          ∧ junctions.next last = [] := by
  have inRange : junctions.InRange := by decide
  have inside : 1 < junctions.size := by decide
  have resolved : junctions.resolve unanswered 1 = some 4 := by decide +kernel
  have unresolved : junctions.resolve answered 1 = none := by decide +kernel
  obtain ⟨first, found, trail, -, -, route, target, -, -⟩ :=
    resolve_exact inRange noChoiceCycle_junctions unanswered inside
  obtain ⟨second, stuck, detour, -, -, astray, -, nothing, -⟩ :=
    resolve_exact inRange noChoiceCycle_junctions answered inside
  have decided : first = [(1, ⟨0, 2, false⟩), (2, ⟨1, 4, true⟩)] := by
    have taken : (junctions.route unanswered 1).1 = first := by rw [route]
    rw [← taken]
    decide +kernel
  have strayed : second = [(1, ⟨1, 3, true⟩)] := by
    have taken : (junctions.route answered 1).1 = second := by rw [astray]
    rw [← taken]
    decide +kernel
  obtain ⟨rfl, -⟩ := (target 4).mp resolved
  exact ⟨inRange, noChoiceCycle_junctions, inside, (trail _ _).mpr ⟨decided.symm, rfl⟩, resolved,
    by decide +kernel, unresolved, stuck, (detour _ _).mpr ⟨strayed.symm, rfl⟩,
    nothing.mp unresolved⟩

end Graph

end Dialogue
