import Dialogue.Proofs.Script.Confinement
import Dialogue.Proofs.Script.Extents

/-! Readings of lines that agree. A scope is read in the same way from all lines that agree up to
where it is closed, whatever stands behind, and from the same lines under all lists of the same
option names.
-/

namespace Dialogue

/-- Whether a scope is closed by a tag. -/
def Scope.isClosed : Scope → Bool
  | .beat _ _ rest => rest.isClosed
  | .block _ _ rest => rest.isClosed
  | .ended _ | .dead _ => true
  | .runsOut _ | .unfilled => false

/-- Settling does not change whether a scope is closed, by induction on its rest. -/
theorem Scope.isClosed_settle (waiting : Bool)
    : (scope : Scope) → (scope.settle waiting).isClosed = scope.isClosed
  | .beat _ _ rest => rest.isClosed_settle false
  | .block _ branches rest => rest.isClosed_settle branches.anyLoose
  | .runsOut _ => by cases waiting <;> rfl
  | .ended _ | .dead _ | .unfilled => rfl

namespace Line

-----------------------------------------------------------------------------------------
-- Option names
-----------------------------------------------------------------------------------------

section Names

variable {names others : List String} (same : ∀ name, name ∈ others ↔ name ∈ names)

include same

theorem labelParts?_congr (line : Line) : line.labelParts? others = line.labelParts? names := by
  have contains (name : String) : others.contains name = names.contains name := by
    rw [Bool.eq_iff_iff, List.contains_iff_mem, List.contains_iff_mem, same]
  simp only [labelParts?, contains]

theorem guard_congr (line : Line) : line.guard others = line.guard names := by
  rw [guard, guard, labelParts?_congr same]

theorem branch?_congr (line : Line) : line.branch? others = line.branch? names := by
  rw [branch?, branch?, labelParts?_congr same]

/-- The order and the number of the option names make no difference to a scan, by induction on the
lines.
-/
theorem scanFrom_congr (nested index : Nat) (lines : List Line)
    : scanFrom others nested index lines = scanFrom names nested index lines := by
  induction lines generalizing nested index with
  | nil => rfl
  | cons line rest ih => simp only [scanFrom, branch?_congr same, ih]

theorem scanBlock_congr (lines : List Line) (opened start : Nat)
    : scanBlock lines others opened start = scanBlock lines names opened start := by
  simp only [scanBlock, guard_congr same, scanFrom_congr same]

end Names

mutual

/-- A scope is read in the same way under all lists of the same option names, by induction on the
rules.
-/
theorem Reads.of_names {lines : List Line} {names others : List String}
    (same : ∀ name, name ∈ others ↔ name ∈ names)
    : ∀ {stop cursor : Nat} {known : List String} {reading : Reading},
        Reads lines names stop cursor known reading
        → Reads lines others stop cursor known reading
  | _, _, _, _, .runsOut noLine => .runsOut noLine
  | _, _, _, _, .silent here means isSilent rest =>
      .silent here means isSilent (rest.of_names same)
  | _, _, _, _, .ended here means => .ended here means
  | _, _, _, _, .dead here means => .dead here means
  | _, _, _, _, .beat here means shows rest => .beat here means shows (rest.of_names same)
  | _, _, _, _, .option here means found rest => .option here means found (rest.of_names same)
  | _, _, _, _, .choices here means found bodies rest => by
      have again := (scanBlock_congr same lines _ _).trans found
      exact .choices here means again (bodies.of_names same) (rest.of_names same)

theorem ReadsBranches.of_names {lines : List Line} {names others : List String}
    (same : ∀ name, name ∈ others ↔ name ∈ names)
    : ∀ {branches : List Branch} {known later : List String} {result : Branches},
        ReadsBranches lines names branches known result later
        → ReadsBranches lines others branches known result later
  | _, _, _, _, .nil => .nil
  | _, _, _, _, .cons body tail => .cons (body.of_names same) (tail.of_names same)

end

-----------------------------------------------------------------------------------------
-- Option blocks
-----------------------------------------------------------------------------------------

section Options

variable {lines others : List Line} {index close : Nat}

/-- From `index` up to `close`, other lines are taken by an option block as these: they close it
alike and give the same choices.
-/
def OfferedAlike (lines others : List Line) (index close : Nat) : Prop :=
  ∀ middle line,
    index ≤ middle
    → middle ≤ close
    → lines[middle]? = some line
    → ∃ other,
        others[middle]? = some other
        ∧ other.isTerminator = line.isTerminator
        ∧ other.choice = line.choice

/-- The choices of an option block are found on all lines that it takes in the same way, by
induction on the lines.
-/
theorem choicesFrom_of_alike {choices : List String}
    (found : choicesFrom index (lines.drop index) = some (choices, close))
    (alike : OfferedAlike lines others index close)
    : choicesFrom index (others.drop index) = some (choices, close) := by
  have upTo := le_of_choicesFrom found
  generalize remaining : lines.drop index = left at found
  induction left generalizing index choices with
  | nil => exact nomatch found
  | cons line rest ih =>
      obtain ⟨here, dropped⟩ := drop_eq_cons remaining
      obtain ⟨other, there, closes, choice⟩ := alike index line (Nat.le_refl _) upTo here
      rw [drop_of_getElem? there]
      unfold choicesFrom at found ⊢
      rw [closes, choice]
      split at found
      · next terminator => rw [if_pos terminator, found]
      · next terminatorNot =>
          obtain ⟨⟨later, last⟩, inner, same⟩ := Option.map_eq_some_iff.mp found
          obtain ⟨rfl, rfl⟩ := Prod.mk.inj same
          have again := ih (fun middle line behind => alike middle line (Nat.le_of_succ_le behind))
            (le_of_choicesFrom inner) dropped inner
          rw [if_neg terminatorNot, again]
          rfl

theorem readOption_of_alike {opened : Nat} {name : String} {choices : List String}
    (found : readOption lines opened name = .ok (choices, close))
    (alike : OfferedAlike lines others (opened + 1) close)
    : readOption others opened name = .ok (choices, close) := by
  rw [readOption, choicesFrom_of_alike (choicesFrom_of_readOption found) alike]
  cases choices with
  | nil => exact absurd rfl (choices_ne_nil_of_readOption found)
  | cons first rest => rfl

/-- An option block is read from all lines that agree on those of the block. -/
theorem AgreeOn.readOption {opened : Nat} {name : String} {choices : List String}
    (agree : AgreeOn lines others opened (close + 1))
    (found : readOption lines opened name = .ok (choices, close))
    : Line.readOption others opened name = .ok (choices, close) := by
  refine readOption_of_alike found fun middle line after le here => ?_
  have same := agree middle (Nat.le_of_succ_le after) (Nat.lt_succ_of_le le)
  exact ⟨line, same.trans here, rfl, rfl⟩

/-- A choices block is found in all lines that agree on those of the block. -/
theorem AgreeOn.scanBlock {declared : List String} {opened : Nat} {block : Block}
    (agree : AgreeOn lines others opened block.reconverge)
    (found : scanBlock lines declared opened (opened + 1) = .ok block)
    : Line.scanBlock others declared opened (opened + 1) = .ok block :=
  scanBlock_of_same found
    (fun index after le => agree index (Nat.le_of_succ_le after) (Nat.lt_succ_of_le le)) opened

end Options

-----------------------------------------------------------------------------------------
-- Scopes
-----------------------------------------------------------------------------------------

section Scopes

variable {lines others : List Line}

/-- A scope that stops at `stop` here comes to the same end where it stops at `last` in other lines:
it is closed in front of there, or it stops at the same place, with the same number on the line
before.
-/
def EndsAlike (lines others : List Line) (stop last : Nat) (reading : Reading) : Prop :=
  (reading.scope.isClosed = true ∧ reading.cursor ≤ last)
  ∨ (last = stop ∧ numberAt others (stop - 1) = numberAt lines (stop - 1))

theorem EndsAlike.before? {stop last cursor : Nat} {line : Line} {reading : Reading}
    (ends : EndsAlike lines others stop last reading)
    (agree : AgreeOn lines others cursor reading.cursor) (forward : cursor < reading.cursor)
    (here : before? lines stop cursor = some line)
    : before? others last cursor = some line := by
  obtain ⟨inside, there⟩ := of_before? here
  have before : cursor < last := by
    rcases ends with ⟨-, le⟩ | ⟨rfl, -⟩
    · exact Nat.lt_of_lt_of_le forward le
    · exact inside
  rw [Line.before?, if_pos before, agree cursor (Nat.le_refl _) forward, there]

end Scopes

mutual

/-- A scope is read in the same way from all lines that agree from its start up to where its reading
ends, if it comes to the same end there. By induction on the rules.
-/
theorem Reads.of_agreeOn {lines others : List Line} {declared : List String}
    : ∀ {stop cursor : Nat} {known : List String} {reading : Reading},
        Reads lines declared stop cursor known reading
        → ∀ {last : Nat},
            Contained lines declared stop cursor
            → AgreeOn lines others cursor reading.cursor
            → EndsAlike lines others stop last reading
            → Reads others declared last cursor known reading
  | _, cursor, _, _, .runsOut noLine, last, contained, _, ends => by
      rcases ends with ⟨closed, -⟩ | ⟨rfl, number⟩
      · cases closed
      · have outside : ¬ cursor < last := by
          intro inside
          have there := Nat.lt_of_lt_of_le inside contained.stop_le
          rw [Line.before?, if_pos inside, List.getElem?_eq_getElem there] at noLine
          cases noLine
        rw [← number]
        exact .runsOut (if_neg outside)
  | _, _, _, _, .silent here means isSilent rest, _, contained, agree, ends => by
      have later := contained.after_line (of_before? here).1
      obtain ⟨forward, -⟩ := rest.sourceLines later
      have agreeLater := agree.within (Nat.le_succ _) (Nat.le_refl _)
      exact .silent (ends.before? agree forward here) means isSilent
        (rest.of_agreeOn later agreeLater ends)
  | _, _, _, _, .ended here means, _, _, agree, ends =>
      .ended (ends.before? agree (Nat.lt_succ_self _) here) means
  | _, _, _, _, .dead here means, _, _, agree, ends =>
      .dead (ends.before? agree (Nat.lt_succ_self _) here) means
  | _, _, _, _, .beat here means shows rest, _, contained, agree, ends => by
      have later := contained.after_line (of_before? here).1
      obtain ⟨forward, -⟩ := rest.sourceLines later
      have agreeLater := agree.within (Nat.le_succ _) (Nat.le_refl _)
      exact .beat (ends.before? agree forward here) means shows
        (rest.of_agreeOn later agreeLater ends)
  | _, _, _, _, .option here means found rest, _, contained, agree, ends => by
      obtain ⟨-, later⟩ := contained.after_option here (isOpening_of_option means) found
      obtain ⟨after, -⟩ := rest.sourceLines later
      have behind := lt_of_readOption found
      have again := (agree.within (Nat.le_refl _) after).readOption found
      have agreeLater := agree.within (Nat.le_succ_of_le (Nat.le_of_lt behind)) (Nat.le_refl _)
      exact .option (ends.before? agree (Nat.lt_trans behind after) here) means again
        (rest.of_agreeOn later agreeLater ends)
  | _, _, _, _, .choices here means found bodies rest, _, contained, agree, ends => by
      obtain ⟨-, later⟩ := contained.after_choices here (isOpening_of_choices means) found
      obtain ⟨after, -⟩ := rest.sourceLines later
      have behind := Nat.le_of_succ_le (Nat.le_of_lt (scanBlock_bounds found).1)
      have agreeBlock := agree.within (Nat.le_refl _) after
      have agreeBodies := agreeBlock.within (Nat.le_succ _) (Nat.le_succ _)
      have agreeLater := agree.within (Nat.le_succ_of_le behind) (Nat.le_refl _)
      exact .choices (ends.before? agree (Nat.lt_of_le_of_lt behind after) here) means
        (agreeBlock.scanBlock found)
        (bodies.of_agreeOn (successive_of_scanBlock found) agreeBodies)
        (rest.of_agreeOn later agreeLater ends)

/-- The bodies of branches are read in the same way from all lines that agree on those of the
branches. By induction on the rules.
-/
theorem ReadsBranches.of_agreeOn {lines others : List Line} {declared : List String}
    : ∀ {branches : List Branch} {known later : List String} {result : Branches},
        ReadsBranches lines declared branches known result later
        → ∀ {low close : Nat},
            Successive lines declared close low branches
            → AgreeOn lines others low close
            → ReadsBranches others declared branches known result later
  | _, _, _, _, .nil, _, _, _, _ => .nil
  | branch :: _, _, _, _, .cons body tail, low, close, ⟨le, stops, rest⟩, agree => by
      have start : branch.start = branch.label + 1 := rfl
      have inside := stops.bounds.1
      have upTo := rest.le
      obtain ⟨-, bodyStop, -⟩ := body.sourceLines stops.contained
      have number := agree.numberAt (by omega : low ≤ branch.stop - 1) (by omega)
      exact .cons
        (body.of_agreeOn stops.contained (agree.within (by omega) (by omega))
          (Or.inr ⟨rfl, number⟩))
        (tail.of_agreeOn rest (agree.within (by omega) (Nat.le_refl _)))

end

end Line

end Dialogue
