import Dialogue.Proofs.Script.Drafting
import Dialogue.Proofs.Script.Reads
import Dialogue.Script.Compile

/-! The outlines that scripts are compiled from are proper, whatever their lines. -/

namespace Dialogue

theorem Statement.offers_of_beat? {statement : Statement} {shown : Beat}
    (shows : statement.beat? = some shown)
    : shown.Offers := by
  cases statement with
  | scene _ | say _ _ | think _ _ =>
      obtain rfl := Option.some.inj shows
      trivial
  | _ => cases shows

namespace Line

/-- An option block that is read has at least one choice, by cases on what was found. -/
theorem choices_ne_nil_of_readOption {lines : List Line} {opened close : Nat} {name : String}
    {choices : List String} (h : readOption lines opened name = .ok (choices, close))
    : choices ≠ [] := by
  rintro rfl
  unfold readOption at h
  split at h
  · cases h
  · cases h
  · next someChoice _ =>
      obtain ⟨none, -⟩ := Prod.mk.inj (Except.ok.inj h)
      exact someChoice none

/-- The first label of a block that is found stands where it is expected. -/
theorem labels_of_scanBlock {lines : List Line} {names : List String} {opened start : Nat}
    {block : Block} (h : scanBlock lines names opened start = .ok block)
    : ∃ first guard found,
        lines[start]? = some first
        ∧ first.guard names = .ok (some guard)
        ∧ scanFrom names 0 (start + 1) (lines.drop (start + 1)) = some found
        ∧ block = { found with labels := ⟨start, guard⟩ :: found.labels } := by
  unfold scanBlock at h
  split at h
  · cases h
  · next first here =>
      split at h
      · cases h
      · cases h
      · next guard labelled =>
          split at h
          · cases h
          · next found scanned =>
              exact ⟨first, guard, found, here, labelled, scanned, (Except.ok.inj h).symm⟩

theorem branches_ne_nil_of_scanBlock {lines : List Line} {names : List String}
    {opened start : Nat} {block : Block} (h : scanBlock lines names opened start = .ok block)
    : block.branches ≠ [] := by
  obtain ⟨first, guard, found, -, -, -, rfl⟩ := labels_of_scanBlock h
  exact List.cons_ne_nil _ _

mutual

/-- Every scope that is read is closed and proper, by induction on the rules. -/
theorem Reads.proper {lines : List Line} {declared : List String}
    : ∀ {stop cursor : Nat} {known : List String} {reading : Reading},
        Reads lines declared stop cursor known reading
        → reading.scope.isFilled = true ∧ reading.scope.Proper
  | _, _, _, _, .runsOut _ => ⟨rfl, trivial⟩
  | _, _, _, _, .silent _ _ _ rest => rest.proper
  | _, _, _, _, .ended _ _ => ⟨rfl, trivial⟩
  | _, _, _, _, .dead _ _ => ⟨rfl, trivial⟩
  | _, _, _, _, .beat _ _ shows rest => by
      obtain ⟨filled, proper⟩ := rest.proper
      exact ⟨filled, Statement.offers_of_beat? shows, proper⟩
  | _, _, _, _, .option _ _ found rest => by
      obtain ⟨filled, proper⟩ := rest.proper
      exact ⟨filled, choices_ne_nil_of_readOption found, proper⟩
  | _, _, _, _, .choices _ _ found bodies rest => by
      obtain ⟨filled, proper⟩ := rest.proper
      obtain ⟨guards, properBranches⟩ := bodies.proper
      refine ⟨filled, ?_, properBranches, fun _ => Scope.ne_unfilled_of_isFilled filled, proper⟩
      rw [guards]
      exact fun none => branches_ne_nil_of_scanBlock found (List.map_eq_nil_iff.mp none)

/-- All branches that are read are proper, and their guards are those that were found, by induction
on the rules.
-/
theorem ReadsBranches.proper {lines : List Line} {declared : List String}
    : ∀ {branches : List Branch} {known later : List String} {result : Branches},
        ReadsBranches lines declared branches known result later
        → result.guards = branches.map Branch.guard ∧ result.Proper
  | _, _, _, _, .nil => ⟨rfl, trivial⟩
  | _, _, _, _, .cons body tail => by
      obtain ⟨filled, proper⟩ := body.proper
      obtain ⟨guards, properTail⟩ := tail.proper
      exact ⟨congrArg _ guards, filled, proper, properTail⟩

end

/-- These lines are those of a dialogue with this outline. -/
inductive Outlines (lines : List Line) : Scope → Prop where
  | intro {declared reading} (someLine : lines ≠ []) (names : optionNames lines = .ok declared)
    (reads : Reads lines declared lines.length 0 [] reading)
    : Outlines lines (reading.scope.settle false)

/-- The outline of a script is the scope of all its lines, once its end is settled. -/
theorem outcome_readOutline (lines : List Line) (declared : List String)
    : (readOutline lines declared).outcome
      = (fun reading => reading.scope.settle false)
          <$> (readScope lines declared lines.length 0 []).outcome := by
  rw [readOutline, Logged.outcome_bind]
  cases (readScope lines declared lines.length 0 []).outcome with
  | error error => rfl
  | ok reading =>
      show Logged.outcome _ = _
      split
      · exact Logged.outcome_report_bind _ _
      · rfl

theorem compile_nil : (compile []).outcome = .error .empty :=
  rfl

/-- Lines are compiled by declaring the options that they open, reading their scope with these, and
splicing the layout of its outline.
-/
theorem outcome_compile {lines : List Line} (someLine : lines ≠ [])
    : (compile lines).outcome
      = (optionNames lines >>= fun declared =>
          (fun reading => (reading.scope.settle false).layout.splice)
            <$> (readScope lines declared lines.length 0 []).outcome) := by
  have notEmpty : lines.isEmpty = false := List.isEmpty_eq_false_iff.mpr someLine
  simp only [compile, notEmpty, Bool.false_eq_true, if_false, Logged.outcome_bind,
    Logged.outcome_ofExcept, outcome_readOutline]
  cases optionNames lines with
  | error error => rfl
  | ok declared =>
      simp only [bind, Except.bind]
      cases (readScope lines declared lines.length 0 []).outcome <;> rfl

/-- A graph is compiled from lines if it is the spliced layout of their outline. -/
theorem compile_eq_ok_iff {lines : List Line} {graph : Graph}
    : (compile lines).outcome = .ok graph
      ↔ ∃ scope, Outlines lines scope ∧ scope.layout.splice = graph := by
  by_cases none : lines = []
  · subst none
    constructor
    · exact fun failed => nomatch failed
    · exact fun ⟨_, ⟨someLine, _, _⟩, _⟩ => absurd rfl someLine
  · rw [outcome_compile none, bind_eq_ok_iff]
    constructor
    · rintro ⟨declared, names, read⟩
      obtain ⟨reading, reads, rfl⟩ := map_eq_ok_iff.mp read
      exact ⟨_, .intro none names (reads_of_readScope reads), rfl⟩
    · rintro ⟨_, ⟨_, names, reads⟩, rfl⟩
      exact ⟨_, names, map_eq_ok_iff.mpr ⟨_, reads.readScope, rfl⟩⟩

/-- The outline of a script is proper. -/
theorem Outlines.proper {lines : List Line} {scope : Scope} (h : Outlines lines scope)
    : scope.Proper := by
  obtain ⟨-, -, reads⟩ := h
  obtain ⟨filled, proper⟩ := reads.proper
  exact (Scope.proper_settle _ false filled proper).1

/-- The outline of a script lays out a draft. -/
theorem Outlines.drafted {lines : List Line} {scope : Scope} (h : Outlines lines scope)
    : scope.layout.Drafted :=
  Scope.drafted_layout h.proper

end Line

end Dialogue
