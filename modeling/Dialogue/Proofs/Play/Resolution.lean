import Dialogue.Play.Engine
import Dialogue.Proofs.Graph.Splicing

/-! How an engine gets from choice to choice to the next node that it can present. Where no cycle
is made of choices alone, no choice comes up twice, so the record of the choices that were met
decides nothing.
-/

namespace Dialogue

open Relation

namespace Memory

/-- A decision leads to one of the successors, by cases on whether a guard picks it. -/
theorem target_mem_of_decide? {memory : Memory} {guards : List Guard} {successors : List Nat}
    {decision : Decision} (h : memory.decide? guards successors = some decision)
    : decision.target ∈ successors := by
  unfold decide? at h
  rcases Option.or_eq_some_iff.mp h with picked | ⟨-, fallback⟩
  · obtain ⟨branch, -, found⟩ := Option.bind_eq_some_iff.mp picked
    obtain ⟨target, inside, rfl⟩ := Option.map_eq_some_iff.mp found
    exact List.mem_of_getElem? inside
  · obtain ⟨target, last, rfl⟩ := Option.map_eq_some_iff.mp fallback
    exact List.mem_of_getLast? last

/-- Where there are successors there is a decision, since the last one can always be taken. -/
theorem exists_decide? (memory : Memory) (guards : List Guard) {successors : List Nat}
    (some : successors ≠ [])
    : ∃ decision, memory.decide? guards successors = .some decision := by
  have last := List.getLast?_eq_some_getLast some
  unfold decide?
  rw [last, Option.map_some]
  cases (guards.findIdx? memory.satisfies).bind
      fun branch => successors[branch]?.map fun target => Decision.mk branch target false with
  | none => exact ⟨_, rfl⟩
  | some decision => exact ⟨decision, rfl⟩

end Memory

namespace Graph

theorem routeFrom_of_not_choice {graph : Graph} {memory : Memory} {unseen : List Nat} {id : Nat}
    (plain : ∀ guards, graph.node id ≠ .choice guards)
    : graph.routeFrom memory unseen id = ([], some id) := by
  rw [routeFrom]
  split
  · next guards found => exact absurd found (plain guards)
  · rfl

theorem routeFrom_decided {graph : Graph} {memory : Memory} {unseen : List Nat} {id : Nat}
    {guards : List Guard} {decision : Decision} (found : graph.node id = .choice guards)
    (fresh : id ∈ unseen) (decided : memory.decide? guards (graph.next id) = some decision)
    : graph.routeFrom memory unseen id
        = ((id, decision) :: (graph.routeFrom memory (unseen.erase id) decision.target).1,
            (graph.routeFrom memory (unseen.erase id) decision.target).2) := by
  rw [routeFrom]
  simp only [found, if_pos fresh, decided]

theorem routeFrom_undecided {graph : Graph} {memory : Memory} {unseen : List Nat} {id : Nat}
    {guards : List Guard} (found : graph.node id = .choice guards)
    (undecided : memory.decide? guards (graph.next id) = none)
    : graph.routeFrom memory unseen id = ([], none) := by
  rw [routeFrom]
  simp only [found, undecided, ite_self]

theorem mem_ids {graph : Graph} {id : Nat} : id ∈ graph.ids ↔ id < graph.size :=
  List.mem_range

/-- In a forward graph a route is the same whichever earlier choices count as met, by induction from
the last slot backwards.
-/
theorem Forward.routeFrom_eq_route {graph : Graph} (forward : graph.Forward) {memory : Memory}
    {unseen : List Nat} (id : Nat) (fresh : ∀ later < graph.size, id ≤ later → later ∈ unseen)
    : graph.routeFrom memory unseen id = graph.route memory id := by
  rw [route]
  by_cases choice : ∃ guards, graph.node id = .choice guards
  · obtain ⟨guards, found⟩ := choice
    have inside : id < graph.size :=
      lt_size_of_node_ne_empty (by rw [found]; exact Node.noConfusion)
    cases decided : memory.decide? guards (graph.next id) with
    | none => rw [routeFrom_undecided found decided, routeFrom_undecided found decided]
    | some decision =>
        have later := forward id _ (Memory.target_mem_of_decide? decided)
        have left : graph.routeFrom memory (unseen.erase id) decision.target = _ :=
          forward.routeFrom_eq_route decision.target fun other otherInside after =>
            (List.mem_erase_of_ne (by omega)).mpr (fresh other otherInside (by omega))
        have right : graph.routeFrom memory (graph.ids.erase id) decision.target = _ :=
          forward.routeFrom_eq_route decision.target fun other otherInside after =>
            (List.mem_erase_of_ne (by omega)).mpr (mem_ids.mpr otherInside)
        rw [routeFrom_decided found (fresh id inside (Nat.le_refl id)) decided,
          routeFrom_decided found (mem_ids.mpr inside) decided, left, right]
  · have plain : ∀ guards, graph.node id ≠ .choice guards :=
      fun guards found => choice ⟨guards, found⟩
    rw [routeFrom_of_not_choice plain, routeFrom_of_not_choice plain]
termination_by graph.size - id
decreasing_by all_goals omega

theorem resolve_of_not_choice {graph : Graph} {memory : Memory} {id : Nat}
    (plain : ∀ guards, graph.node id ≠ .choice guards)
    : graph.resolve memory id = some id := by
  rw [resolve, route, routeFrom_of_not_choice plain]

/-- In a forward graph a choice resolves to what its decision leads to. -/
theorem Forward.resolve_choice {graph : Graph} (forward : graph.Forward) {memory : Memory}
    {id : Nat} {guards : List Guard} (found : graph.node id = .choice guards)
    : graph.resolve memory id
        = (memory.decide? guards (graph.next id)).bind
            fun decision => graph.resolve memory decision.target := by
  have inside : id < graph.size :=
    lt_size_of_node_ne_empty (by rw [found]; exact Node.noConfusion)
  rw [resolve, route]
  cases decided : memory.decide? guards (graph.next id) with
  | none => rw [routeFrom_undecided found decided, Option.bind_none]
  | some decision =>
      have later := forward id _ (Memory.target_mem_of_decide? decided)
      rw [routeFrom_decided found (mem_ids.mpr inside) decided, Option.bind_some,
        forward.routeFrom_eq_route decision.target fun other otherInside after =>
          (List.mem_erase_of_ne (by omega)).mpr (mem_ids.mpr otherInside)]
      rfl

/-- One step of following choices: a choice is decided and left for the target. -/
def Follows (graph : Graph) (memory : Memory) (source target : Nat) : Prop :=
  ∃ guards decision,
    graph.node source = .choice guards
    ∧ memory.decide? guards (graph.next source) = some decision
    ∧ decision.target = target

theorem Follows.mem_next {graph : Graph} {memory : Memory} {source target : Nat}
    (h : graph.Follows memory source target)
    : target ∈ graph.next source := by
  obtain ⟨guards, decision, -, decided, rfl⟩ := h
  exact Memory.target_mem_of_decide? decided

/-- Following choices leads from reachable slots to reachable slots, by induction on the path. -/
theorem InRange.mem_reachable_of_follows {graph : Graph} (inRange : graph.InRange)
    {memory : Memory} {first last : Nat} (path : ReflTransGen (graph.Follows memory) first last)
    (reached : first ∈ graph.reachable)
    : last ∈ graph.reachable := by
  induction path with
  | refl => exact reached
  | tail _ step ih => exact inRange.mem_reachable_of_successor ih step.mem_next

/-- Following choices leads from a node to the one that is resolved, on any graph. By induction on
the route.
-/
theorem follows_of_routeFrom {graph : Graph} {memory : Memory} {unseen : List Nat} {id last : Nat}
    (resolved : (graph.routeFrom memory unseen id).2 = some last)
    : ReflTransGen (graph.Follows memory) id last := by
  by_cases choice : ∃ guards, graph.node id = .choice guards
  · obtain ⟨guards, found⟩ := choice
    by_cases fresh : id ∈ unseen
    · cases decided : memory.decide? guards (graph.next id) with
      | none =>
          rw [routeFrom_undecided found decided] at resolved
          cases resolved
      | some decision =>
          rw [routeFrom_decided found fresh decided] at resolved
          exact .head ⟨guards, decision, found, decided, rfl⟩ (follows_of_routeFrom resolved)
    · rw [routeFrom] at resolved
      simp only [found, if_neg fresh] at resolved
      cases resolved
  · have plain : ∀ guards, graph.node id ≠ .choice guards :=
      fun guards found => choice ⟨guards, found⟩
    rw [routeFrom_of_not_choice plain] at resolved
    obtain rfl := Option.some.inj resolved
    exact .refl
termination_by unseen.length
decreasing_by
  have shorter := List.length_erase_of_mem fresh
  have positive := List.length_pos_of_mem fresh
  omega

theorem follows_of_resolve {graph : Graph} {memory : Memory} {id last : Nat}
    (resolved : graph.resolve memory id = some last)
    : ReflTransGen (graph.Follows memory) id last :=
  follows_of_routeFrom resolved

-----------------------------------------------------------------------------------------
-- Graphs without cycles of choices
-----------------------------------------------------------------------------------------

/-- An edge that leads out of a choice. -/
def ForksTo (graph : Graph) (source target : Nat) : Prop :=
  (∃ guards, graph.node source = .choice guards) ∧ target ∈ graph.next source

/-- No cycle of the graph is made of choices alone. -/
def NoChoiceCycle (graph : Graph) : Prop :=
  ∀ id, ¬ TransGen graph.ForksTo id id

theorem Follows.forksTo {graph : Graph} {memory : Memory} {source target : Nat}
    (follows : graph.Follows memory source target)
    : graph.ForksTo source target := by
  obtain ⟨guards, decision, found, -, -⟩ := id follows
  exact ⟨⟨guards, found⟩, follows.mem_next⟩

/-- From this node on, following choices comes to an end at `last`. It is resolved unless it is a
choice that has no successors.
-/
def EndsAt (graph : Graph) (memory : Memory) (id last : Nat) (resolved : Option Nat) : Prop :=
  ReflTransGen (graph.Follows memory) id last
  ∧ (((∀ guards, graph.node last ≠ .choice guards) ∧ resolved = some last)
      ∨ ((∃ guards, graph.node last = .choice guards) ∧ graph.next last = [] ∧ resolved = none))

/-- Without a cycle of choices the record of the choices that were met never cuts a route short. By
induction on the record: a choice that is left cannot be met again.
-/
theorem NoChoiceCycle.exists_endsAt_routeFrom {graph : Graph} (noCycle : graph.NoChoiceCycle)
    {memory : Memory} {unseen : List Nat} (id : Nat)
    (fresh : ∀ later guards,
      ReflTransGen graph.ForksTo id later → graph.node later = .choice guards → later ∈ unseen)
    : ∃ last, graph.EndsAt memory id last (graph.routeFrom memory unseen id).2 := by
  by_cases choice : ∃ guards, graph.node id = .choice guards
  · obtain ⟨guards, found⟩ := choice
    have here := fresh id guards .refl found
    by_cases leads : graph.next id = []
    · have undecided : memory.decide? guards (graph.next id) = none := by
        rw [leads]
        simp [Memory.decide?]
      rw [routeFrom_undecided found undecided]
      exact ⟨id, .refl, Or.inr ⟨⟨guards, found⟩, leads, rfl⟩⟩
    · obtain ⟨decision, decided⟩ := memory.exists_decide? guards leads
      have step : graph.Follows memory id decision.target := ⟨guards, decision, found, decided, rfl⟩
      rw [routeFrom_decided found here decided]
      have freshLater : ∀ later guards,
          ReflTransGen graph.ForksTo decision.target later
          → graph.node later = .choice guards
          → later ∈ unseen.erase id := by
        intro later guards path laterFound
        have whole : TransGen graph.ForksTo id later := .head' step.forksTo path
        refine (List.mem_erase_of_ne ?_).mpr (fresh later guards whole.to_reflTransGen laterFound)
        rintro rfl
        exact noCycle _ whole
      obtain ⟨last, path, ends⟩ := noCycle.exists_endsAt_routeFrom decision.target freshLater
      exact ⟨last, .head step path, ends⟩
  · have plain : ∀ guards, graph.node id ≠ .choice guards :=
      fun guards found => choice ⟨guards, found⟩
    rw [routeFrom_of_not_choice plain]
    exact ⟨id, .refl, Or.inl ⟨plain, rfl⟩⟩
termination_by unseen.length
decreasing_by
  have shorter := List.length_erase_of_mem here
  have positive := List.length_pos_of_mem here
  omega

/-- Without a cycle of choices, following choices comes to an end from every slot. -/
theorem NoChoiceCycle.exists_endsAt {graph : Graph} (noCycle : graph.NoChoiceCycle)
    (memory : Memory) (id : Nat)
    : ∃ last, graph.EndsAt memory id last (graph.resolve memory id) := by
  refine noCycle.exists_endsAt_routeFrom id fun later guards _ found => ?_
  exact mem_ids.mpr (lt_size_of_node_ne_empty (by rw [found]; exact Node.noConfusion))

theorem Forward.noChoiceCycle {graph : Graph} (forward : graph.Forward) : graph.NoChoiceCycle :=
  fun id cycle =>
    Nat.lt_irrefl id (forward.lt_of_transGen (cycle.lift _ fun _ _ step => step.2))

/-- In a forward graph whose choices all have successors, following choices comes to an end at a
node that is none, and that is the node that is resolved.
-/
theorem Forward.exists_resolve {graph : Graph} (forward : graph.Forward)
    (decidable : ∀ id guards, graph.node id = .choice guards → graph.next id ≠ [])
    (memory : Memory) (id : Nat)
    : ∃ last,
        ReflTransGen (graph.Follows memory) id last
        ∧ (∀ guards, graph.node last ≠ .choice guards)
        ∧ graph.resolve memory id = some last := by
  obtain ⟨last, path, ⟨plain, resolved⟩ | ⟨⟨guards, found⟩, leads, -⟩⟩ :=
    forward.noChoiceCycle.exists_endsAt memory id
  · exact ⟨last, path, plain, resolved⟩
  · exact absurd leads (decidable last guards found)

end Graph

end Dialogue
