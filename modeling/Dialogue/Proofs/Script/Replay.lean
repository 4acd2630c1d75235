import Dialogue.Proofs.Script.Assembly

/-! Replaying what is done to assemble a script gives the layout of its outline. In between, the
slots of a scope that has been left are those of its layout but for its loose ends, which have no
successor yet.
-/

namespace Dialogue

-----------------------------------------------------------------------------------------
-- Single acts
-----------------------------------------------------------------------------------------

theorem modify_length_append {α : Type} (front back : List α) (item : α) (f : α → α)
    : (front ++ [item] ++ back).modify front.length f = front ++ [f item] ++ back := by
  induction front with
  | nil => rfl
  | cons first rest ih =>
      rw [List.cons_append, List.cons_append, List.length_cons, List.modify_succ_cons, ih]
      rfl

namespace Graph

variable {front back : List Slot} {slot : Slot} {root id : Nat}

theorem replay_links_append (graph : Graph) (first second : List Nat) (target : Nat)
    : graph.replay (Act.links (first ++ second) target)
        = (graph.replay (Act.links first target)).replay (Act.links second target) := by
  rw [Act.links, List.map_append]
  exact graph.replay_append _ _

theorem perform_fill (inFront : front.length = id) (node : Node) (line : Nat)
    : (⟨front ++ [slot] ++ back, root⟩ : Graph).perform (.fill id node line)
        = ⟨front ++ [{ slot with node, line }] ++ back, root⟩ := by
  subst inFront
  rw [perform, modify_length_append]

theorem perform_link (inFront : front.length = id) (target : Nat)
    : (⟨front ++ [slot] ++ back, root⟩ : Graph).perform (.link id target)
        = ⟨front ++ [{ slot with next := slot.next ++ [target] }] ++ back, root⟩ := by
  subst inFront
  rw [perform, modify_length_append]

end Graph

-----------------------------------------------------------------------------------------
-- Calls that return
-----------------------------------------------------------------------------------------

namespace Graph

/-- These slots are loose ends: each is dead and has no successor yet, though it has one in the
graph that is assembled at last.
-/
def Loose (last graph : Graph) (ids : List Nat) : Prop :=
  ∀ id ∈ ids,
    ∃ line target,
      graph.slot id = ⟨.dead, line, []⟩ ∧ last.slot id = ⟨.dead, line, [target]⟩

/-- Whenever a call returns while these acts are done, it returns loose ends. -/
def Returns (last graph : Graph) : List Act → Prop
  | [] => True
  | act :: rest =>
      (∀ ids, act = .leave ids → Loose last graph ids) ∧ Returns last (graph.perform act) rest

/-- These acts turn one graph into the other, and calls that return meanwhile return loose ends. -/
structure Performs (last graph : Graph) (acts : List Act) (result : Graph) : Prop where
  replays : graph.replay acts = result
  returns : Returns last graph acts

variable {last graph middle result : Graph} {acts more : List Act}

/-- What calls return while some acts are done does not depend on what is done after them, by
induction on the acts.
-/
theorem Returns.append (first : Returns last graph acts)
    (second : Returns last (graph.replay acts) more)
    : Returns last graph (acts ++ more) := by
  induction acts generalizing graph with
  | nil => exact second
  | cons act rest ih => exact ⟨first.1, ih first.2 second⟩

/-- A call that returned has returned loose ends, by induction on what was done before. -/
theorem Returns.loose {before after : List Act} {ids : List Nat}
    (returns : Returns last graph (before ++ .leave ids :: after))
    : Loose last (graph.replay before) ids := by
  induction before generalizing graph with
  | nil => exact returns.1 ids rfl
  | cons act rest ih => exact ih returns.2

theorem returns_of_forall_ne (quiet : ∀ act ∈ acts, ∀ ids, act ≠ .leave ids)
    : Returns last graph acts := by
  induction acts generalizing graph with
  | nil => trivial
  | cons act rest ih =>
      obtain ⟨first, others⟩ := List.forall_mem_cons.mp quiet
      exact ⟨fun ids same => absurd same (first ids), ih others⟩

theorem Performs.trans (first : Performs last graph acts middle)
    (second : Performs last middle more result)
    : Performs last graph (acts ++ more) result := by
  obtain ⟨rfl, returns⟩ := first
  obtain ⟨rfl, later⟩ := second
  exact ⟨graph.replay_append acts more, returns.append later⟩

/-- No call returns while loose ends are linked. -/
theorem performs_links {waiting : List Nat} {target : Nat}
    (replays : graph.replay (Act.links waiting target) = result)
    : Performs last graph (Act.links waiting target) result := by
  refine ⟨replays, returns_of_forall_ne ?_⟩
  simp [Act.links]

theorem performs_leave {ids : List Nat} (loose : Loose last graph ids)
    : Performs last graph [.leave ids] graph := by
  refine ⟨rfl, fun others same => ?_, trivial⟩
  cases same
  exact loose

theorem performs_push (last : Graph) (front : List Slot) (root : Nat) (node : Node) (line : Nat)
    : Performs last ⟨front, root⟩ [.push node line] ⟨front ++ [⟨node, line, []⟩], root⟩ :=
  ⟨rfl, returns_of_forall_ne (by simp)⟩

theorem performs_fill {front back : List Slot} {slot : Slot} {root id : Nat}
    (inFront : front.length = id) (node : Node) (line : Nat)
    : Performs last ⟨front ++ [slot] ++ back, root⟩ [.fill id node line]
        ⟨front ++ [{ slot with node, line }] ++ back, root⟩ :=
  ⟨perform_fill inFront node line, returns_of_forall_ne (by simp)⟩

theorem performs_link {front back : List Slot} {slot : Slot} {root id : Nat}
    (inFront : front.length = id) (target : Nat)
    : Performs last ⟨front ++ [slot] ++ back, root⟩ [.link id target]
        ⟨front ++ [{ slot with next := slot.next ++ [target] }] ++ back, root⟩ :=
  ⟨perform_link inFront target, returns_of_forall_ne (by simp)⟩

end Graph

-----------------------------------------------------------------------------------------
-- Scopes that have been left
-----------------------------------------------------------------------------------------

/-- The slots of a scope whose loose ends have no successor yet. -/
def Scope.opened (base : Nat) : Scope → List Slot
  | .beat shown line rest => ⟨.beat shown, line, [base + 1]⟩ :: rest.opened (base + 1)
  | .block line branches rest =>
      ⟨.choice branches.guards, line, branches.heads (base + 1)⟩
        :: branches.slots (base + 1) (base + 1 + branches.size)
        ++ rest.opened (base + 1 + branches.size)
  | .ended line => [⟨.ending, line, []⟩]
  | .dead line | .runsOut line => [⟨.dead, line, []⟩]
  | .unfilled => [⟨.empty, 0, []⟩]

/-- The slots of branches whose loose ends have no successor yet. -/
def Branches.opened (base : Nat) : Branches → List Slot
  | .nil => []
  | .cons _ body rest => body.opened base ++ rest.opened (base + body.size)

@[simp] theorem Scope.length_opened (scope : Scope) (base : Nat)
    : (scope.opened base).length = scope.size := by
  cases scope with
  | beat shown line rest => rw [opened, size, List.length_cons, rest.length_opened]
  | block line branches rest =>
      rw [opened, size, List.cons_append, List.length_cons, List.length_append,
        branches.length_slots, rest.length_opened]
  | ended line | dead line | runsOut line | unfilled => rfl

@[simp] theorem Branches.length_opened (branches : Branches) (base : Nat)
    : (branches.opened base).length = branches.size := by
  cases branches with
  | nil => rfl
  | cons guard body rest =>
      rw [opened, size, List.length_append, body.length_opened, rest.length_opened]

/-- The loose ends with which a scope is left are loose ends in the graph, by induction on the
outline.
-/
theorem Scope.loose_of_holds (scope : Scope) {last graph : Graph} {base exit : Nat}
    (left : graph.Holds base (scope.opened base))
    (complete : last.Holds base (scope.slots base exit))
    : Graph.Loose last graph (scope.loose base) := by
  cases scope with
  | beat shown line rest => exact rest.loose_of_holds left.tail complete.tail
  | block line branches rest =>
      rw [opened, List.cons_append] at left
      have leftRest := left.tail.right
      rw [Branches.length_slots] at leftRest
      exact rest.loose_of_holds leftRest complete.of_block.2.2.2
  | dead line | runsOut line =>
      intro id member
      obtain rfl := List.mem_singleton.mp member
      exact ⟨line, exit, left.slot_eq, complete.slot_eq⟩
  | ended line | unfilled => exact fun _ none => absurd none List.not_mem_nil

/-- Linking the loose ends of a scope that has been left to its exit completes its slots, by
induction on the outline.
-/
theorem Scope.replay_links (scope : Scope) (front : List Slot) {base : Nat}
    (inFront : front.length = base) (back : List Slot) (root exit : Nat)
    : (⟨front ++ scope.opened base ++ back, root⟩ : Graph).replay
          (Act.links (scope.loose base) exit)
        = ⟨front ++ scope.slots base exit ++ back, root⟩ := by
  cases scope with
  | beat shown line rest =>
      let filled : List Slot := front ++ [⟨.beat shown, line, [base + 1]⟩]
      have inFilled : filled.length = base + 1 := by simp [filled, inFront]
      have onward := rest.replay_links filled inFilled back root exit
      simpa [opened, slots, loose, filled] using onward
  | block line branches rest =>
      let filled : List Slot :=
        front
          ++ ⟨.choice branches.guards, line, branches.heads (base + 1)⟩
            :: branches.slots (base + 1) (base + 1 + branches.size)
      have inFilled : filled.length = base + 1 + branches.size := by
        simp [filled, inFront]
        omega
      have onward := rest.replay_links filled inFilled back root exit
      simpa [opened, slots, loose, filled] using onward
  | dead line | runsOut line =>
      exact Graph.perform_link inFront exit
  | ended line | unfilled => rfl

/-- Linking the loose ends of branches to what follows them completes their slots, by induction on
the branches.
-/
theorem Branches.replay_links (branches : Branches) (front : List Slot) {base : Nat}
    (inFront : front.length = base) (back : List Slot) (root exit : Nat)
    : (⟨front ++ branches.opened base ++ back, root⟩ : Graph).replay
          (Act.links (branches.loose base) exit)
        = ⟨front ++ branches.slots base exit ++ back, root⟩ := by
  cases branches with
  | nil => rfl
  | cons guard body rest =>
      have inFilled : (front ++ body.slots base exit).length = base + body.size := by simp [inFront]
      have inBody :=
        body.replay_links front inFront (rest.opened (base + body.size) ++ back) root exit
      have inRest := rest.replay_links _ inFilled back root exit
      rw [loose, Graph.replay_links_append, opened, slots]
      simp only [← List.append_assoc] at inBody inRest ⊢
      rw [inBody, inRest]

-----------------------------------------------------------------------------------------
-- Acts of an outline
-----------------------------------------------------------------------------------------

/-- Linking these loose ends of slots in front to a target gives the slots `tied`, whatever comes
behind them.
-/
def Graph.Ties (root : Nat) (waiting : List Nat) (target : Nat) (front tied : List Slot) : Prop :=
  ∀ back,
    (⟨front ++ back, root⟩ : Graph).replay (Act.links waiting target) = ⟨tied ++ back, root⟩

namespace Graph.Ties

variable {front tied : List Slot} {current root : Nat} {waiting : List Nat}

theorem nil (root target : Nat) (front : List Slot) : Ties root [] target front front :=
  fun _ => rfl

theorem length_eq (ties : Ties root waiting current front tied) : tied.length = front.length := by
  have same := congrArg size (ties [])
  rw [size_replay] at same
  simpa [size] using same.symm

/-- A slot that gets its node comes behind the slots in front, the loose ends of which are linked to
it.
-/
theorem performs_emit (ties : Ties root waiting current front tied)
    (inFront : front.length = current) (last : Graph) (node : Node) (line : Nat)
    : Performs last ⟨front ++ [⟨.empty, 0, []⟩], root⟩ (Act.emit current waiting node line)
        ⟨tied ++ [⟨node, line, []⟩], root⟩ := by
  rw [← List.append_nil (front ++ _)]
  refine (performs_fill inFront node line).trans (performs_links ?_)
  rw [List.append_nil]
  exact ties _

end Graph.Ties

theorem Branches.anyLoose_of_loose_ne_nil (branches : Branches) {base : Nat}
    (some : branches.loose base ≠ [])
    : branches.anyLoose = true := by
  have same := branches.isEmpty_loose base
  rwa [List.isEmpty_eq_false_iff.mpr some, eq_comm, Bool.not_eq_false'] at same

/-- The graph of these slots holds what comes behind some of them. -/
theorem Graph.holds_append {front more : List Slot} {base : Nat} (inFront : front.length = base)
    (root : Nat)
    : (⟨front ++ more, root⟩ : Graph).Holds base more := by
  intro index slot found
  rw [← inFront, List.getElem?_append_right (Nat.le_add_right _ _), Nat.add_sub_cancel_left]
  exact found

mutual

/-- The acts of a scope fill the empty slot in which it goes on and add the other slots of the
scope, while its loose ends stay open. By induction on the outline.
-/
theorem Scope.performs (scope : Scope) {last : Graph} {front tied : List Slot}
    {current root exit : Nat} {waiting : List Nat} (proper : scope.Proper)
    (complete : last.Holds current (scope.slots current exit))
    (inFront : front.length = current) (ties : Graph.Ties root waiting current front tied)
    (continued : waiting ≠ [] → scope ≠ .unfilled)
    : last.Performs ⟨front ++ [⟨.empty, 0, []⟩], root⟩ (scope.acts current waiting)
        ⟨tied ++ scope.opened current, root⟩ := by
  have inTied := ties.length_eq.trans inFront
  cases scope with
  | beat shown line rest =>
      have emitted := ties.performs_emit inFront last (.beat shown) line
      have pushed := emitted.trans (Graph.performs_push _ _ root .empty 0)
      have linked := pushed.trans (Graph.performs_link inTied (current + 1))
      have onward := linked.trans (rest.performs proper.2 complete.tail (by simp [inTied])
        (.nil root _ _) (absurd rfl))
      rw [Scope.acts, Scope.opened, List.append_cons]
      simpa using onward
  | block line branches rest =>
      obtain ⟨-, properBranches, goesOn, properRest⟩ := proper
      obtain ⟨-, -, completeBranches, completeRest⟩ := complete.of_block
      let choice : Slot := ⟨.choice branches.guards, line, branches.heads (current + 1)⟩
      have none : current + 1 + ([] : List Slot).length = current + 1 := rfl
      have linked
          : last.Performs ⟨tied ++ [⟨.choice branches.guards, line, []⟩], root⟩
              (branches.acts current (current + 1))
              ⟨tied ++ [choice] ++ branches.opened (current + 1), root⟩ := by
        have passed := branches.performs ⟨.choice branches.guards, line, []⟩ root properBranches
          completeBranches inTied none
        rw [List.append_nil, List.append_nil] at passed
        exact passed
      have emitted := ties.performs_emit inFront last (.choice branches.guards) line
      have pushed := (emitted.trans linked).trans (Graph.performs_push _ _ root .empty 0)
      have inChoice : (tied ++ [choice]).length = current + 1 := by simp [inTied]
      have inFilled
          : (tied ++ [choice] ++ branches.opened (current + 1)).length
            = current + 1 + branches.size := by
        rw [List.length_append, inChoice, branches.length_opened]
      have onward := pushed.trans (rest.performs properRest completeRest inFilled
        (fun back => branches.replay_links _ inChoice back root _)
        fun some => goesOn (branches.anyLoose_of_loose_ne_nil some))
      rw [Scope.acts, Scope.opened]
      simpa using onward
  | ended line | dead line | runsOut line => exact ties.performs_emit inFront last _ _
  | unfilled =>
      have none : waiting = [] := by
        by_contra some
        exact continued some rfl
      subst none
      exact ⟨ties _, trivial⟩

/-- The acts of branches add the slots of all their bodies and link the choice to the first slot of
each, while their loose ends stay open. By induction on the branches.
-/
theorem Branches.performs (branches : Branches) (slot : Slot) (root : Nat) {last : Graph}
    {front after : List Slot} {choice base exit : Nat} (proper : branches.Proper)
    (complete : last.Holds base (branches.slots base exit)) (inFront : front.length = choice)
    (inAfter : choice + 1 + after.length = base)
    : last.Performs ⟨front ++ [slot] ++ after, root⟩ (branches.acts choice base)
        ⟨front ++ [{ slot with next := slot.next ++ branches.heads base }]
          ++ after ++ branches.opened base, root⟩ := by
  cases branches with
  | nil =>
      refine ⟨?_, trivial⟩
      simp [Branches.acts, Branches.heads, Branches.opened, Graph.replay]
  | cons guard body rest =>
      obtain ⟨-, properBody, properRest⟩ := proper
      obtain ⟨completeBody, completeRest⟩ := complete.of_branch
      have inAll : (front ++ [slot] ++ after).length = base := by simp [inFront]; omega
      have pushed := Graph.performs_push last (front ++ [slot] ++ after) root .empty 0
      have inBody := pushed.trans (body.performs properBody completeBody inAll (.nil root _ _)
        (absurd rfl))
      have left := inBody.trans
        (Graph.performs_leave (body.loose_of_holds (Graph.holds_append inAll root) completeBody))
      rw [List.append_assoc (front ++ [slot])] at left
      have linked := left.trans (Graph.performs_link inFront base)
      have inRest : choice + 1 + (after ++ body.opened base).length = base + body.size := by
        simp
        omega
      have onward := linked.trans (rest.performs _ root properRest completeRest inFront inRest)
      rw [Branches.acts, Branches.heads, Branches.opened]
      simpa using onward

end

/-- The loose ends of a whole dialogue are linked to an ending that comes last, which completes the
layout.
-/
theorem Scope.performs_ending (scope : Scope) (last : Graph)
    : last.Performs ⟨[⟨.start, 0, [1]⟩] ++ scope.opened 1, 0⟩
        (if scope.isLoose then
          .push .ending 0 :: Act.links (scope.loose 1) (scope.size + 1)
        else [])
        scope.layout := by
  have linked := fun back =>
    scope.replay_links [⟨.start, 0, [1]⟩] rfl back 0 (scope.size + 1)
  cases goesOn : scope.isLoose with
  | true =>
      refine (Graph.performs_push _ _ 0 .ending 0).trans (Graph.performs_links ?_)
      rw [layout, goesOn]
      exact linked [⟨.ending, 0, []⟩]
  | false =>
      refine ⟨?_, trivial⟩
      have none : scope.loose 1 = [] := by
        have empty := scope.isEmpty_loose 1
        rwa [goesOn, Bool.not_false, List.isEmpty_iff] at empty
      have complete := linked []
      rw [List.length_singleton, none] at complete
      simpa [layout, goesOn, Act.links] using complete

/-- What is done for a whole dialogue gives the layout of its outline. -/
theorem Scope.performs_history {scope : Scope} (proper : scope.Proper)
    : scope.layout.Performs .bare scope.history scope.layout := by
  have pushed := Graph.performs_push scope.layout [⟨.start, 0, []⟩] 0 .empty 0
  have inStart : [(⟨.start, 0, []⟩ : Slot)].length = 1 := rfl
  have inScope := pushed.trans
    (scope.performs proper scope.holds_layout inStart (.nil 0 1 _) (absurd rfl))
  have left := inScope.trans
    (Graph.performs_leave (scope.loose_of_holds (Graph.holds_append rfl 0) scope.holds_layout))
  rw [← List.nil_append [(⟨.start, 0, []⟩ : Slot)]] at left
  have linked := left.trans (Graph.performs_link rfl 1)
  simpa [history, Graph.bare] using linked.trans (scope.performs_ending _)

-----------------------------------------------------------------------------------------
-- Assembling and compiling
-----------------------------------------------------------------------------------------

namespace Line

theorem assemble_nil : assemble [] = .error .empty :=
  rfl

/-- This is done to assemble lines if it is what is done for their outline. -/
theorem assemble_eq_ok_iff {lines : List Line} {history : List Act}
    : assemble lines = .ok history ↔ ∃ scope, Outlines lines scope ∧ scope.history = history := by
  by_cases none : lines = []
  · subst none
    rw [assemble_nil]
    exact iff_of_false (fun failed => nomatch failed) fun ⟨_, ⟨someLine, _, _⟩, _⟩ => someLine rfl
  · rw [assemble_eq none, bind_eq_ok_iff]
    constructor
    · rintro ⟨declared, names, read⟩
      obtain ⟨reading, reads, rfl⟩ := map_eq_ok_iff.mp read
      exact ⟨_, .intro none names (reads_of_readScope reads), rfl⟩
    · rintro ⟨_, ⟨_, names, reads⟩, rfl⟩
      exact ⟨_, names, map_eq_ok_iff.mpr ⟨_, reads.readScope, rfl⟩⟩

/-- The graph of a script is the one that is assembled, with its placeholders spliced out, and there
is none if assembling fails.
-/
theorem outcome_compile_eq_assemble (lines : List Line)
    : (compile lines).outcome
        = (fun history => (Graph.bare.replay history).splice) <$> assemble lines := by
  by_cases none : lines = []
  · rw [none, compile_nil, assemble_nil]
    rfl
  · rw [outcome_compile none, assemble_eq none]
    cases names : optionNames lines with
    | error error => rfl
    | ok declared =>
        show _ <$> (readScope lines declared lines.length 0 []).outcome
          = _ <$> _ <$> (readScope lines declared lines.length 0 []).outcome
        cases read : (readScope lines declared lines.length 0 []).outcome with
        | error error => rfl
        | ok reading =>
            have outlines : Outlines lines _ := .intro none names (reads_of_readScope read)
            simp only [Functor.map, Except.map, (Scope.performs_history outlines.proper).replays]

end Line

end Dialogue
