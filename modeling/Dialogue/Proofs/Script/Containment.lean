import Dialogue.Proofs.Script.Labels
import Dialogue.Proofs.Script.Outlines

/-! Blocks inside the body of a branch close before the body stops. While a block is scanned, every
line inside it is seen at some nesting depth, and what opens inside has to close before the depth is
back to where a label or a closing tag counts.
-/

namespace Dialogue

namespace Line

theorem not_isOpening_of_isTerminator {line : Line} (terminator : line.isTerminator = true)
    : line.isOpening = false := by
  have tags : line.tags = ["/"] := of_decide_eq_true terminator
  simp [isOpening, first?, tags]

theorem not_isTerminator_of_isOpening {line : Line} (opens : line.isOpening = true)
    : line.isTerminator = false := by
  refine Bool.eq_false_iff.mpr fun closes => ?_
  simp [not_isOpening_of_isTerminator closes] at opens

section Scan

variable {names : List String} {nested index : Nat} {line : Line} {rest : List Line}

theorem scanFrom_opening (opens : line.isOpening = true)
    : scanFrom names nested index (line :: rest)
        = scanFrom names (nested + 1) (index + 1) rest := by
  rw [scanFrom.eq_def]
  exact if_pos opens

theorem scanFrom_terminator_succ (terminator : line.isTerminator = true)
    : scanFrom names (nested + 1) index (line :: rest)
        = scanFrom names nested (index + 1) rest := by
  rw [scanFrom, if_neg (Bool.eq_false_iff.mp (not_isOpening_of_isTerminator terminator)),
    if_pos terminator]

theorem scanFrom_terminator_zero (terminator : line.isTerminator = true)
    : scanFrom names 0 index (line :: rest) = some ⟨[], index⟩ := by
  rw [scanFrom, if_neg (Bool.eq_false_iff.mp (not_isOpening_of_isTerminator terminator)),
    if_pos terminator]

theorem scanFrom_label {guard : Guard} (opensNot : line.isOpening = false)
    (closesNot : line.isTerminator = false) (labels : line.branch? names = some guard)
    : scanFrom names 0 index (line :: rest)
        = (scanFrom names 0 (index + 1) rest).map fun block =>
            { block with labels := ⟨index, guard⟩ :: block.labels } := by
  rw [scanFrom, if_neg (Bool.eq_false_iff.mp opensNot), if_neg (Bool.eq_false_iff.mp closesNot)]
  simp only [labels]

/-- Any other line is passed over. -/
theorem scanFrom_other (opensNot : line.isOpening = false) (closesNot : line.isTerminator = false)
    (labelsNot : nested = 0 → line.branch? names = none)
    : scanFrom names nested index (line :: rest) = scanFrom names nested (index + 1) rest := by
  cases nested with
  | zero =>
      rw [scanFrom, if_neg (Bool.eq_false_iff.mp opensNot), if_neg (Bool.eq_false_iff.mp closesNot)]
      simp only [labelsNot rfl]
  | succ nested =>
      rw [scanFrom, if_neg (Bool.eq_false_iff.mp opensNot), if_neg (Bool.eq_false_iff.mp closesNot)]
      cases line.branch? names <;> rfl

/-- Labels make no difference to where a block closes, by cases on whether the line is one. -/
theorem close_scanFrom_other (opensNot : line.isOpening = false)
    (closesNot : line.isTerminator = false)
    : (scanFrom names nested index (line :: rest)).map Block.close
        = (scanFrom names nested (index + 1) rest).map Block.close := by
  cases nested with
  | zero =>
      cases labels : line.branch? names with
      | none => rw [scanFrom_other opensNot closesNot fun _ => labels]
      | some guard =>
          rw [scanFrom_label opensNot closesNot labels, Option.map_map]
          rfl
  | succ nested => rw [scanFrom_other opensNot closesNot fun zero => absurd zero (by simp)]

end Scan

theorem drop_eq_cons {lines : List Line} {index : Nat} {line : Line} {rest : List Line}
    (h : lines.drop index = line :: rest)
    : lines[index]? = some line ∧ lines.drop (index + 1) = rest := by
  constructor
  · rw [← List.head?_drop, h, List.head?_cons]
  · rw [← List.drop_drop, h, List.drop_succ_cons, List.drop_zero]

/-- The lines from one index up to another. -/
def between (lines : List Line) (low high : Nat) : List Line :=
  (lines.drop low).take (high - low)

@[simp] theorem between_self (lines : List Line) (low : Nat) : between lines low low = [] := by
  simp [between]

theorem drop_of_getElem? {lines : List Line} {index : Nat} {line : Line}
    (here : lines[index]? = some line)
    : lines.drop index = line :: lines.drop (index + 1) := by
  obtain ⟨inside, rfl⟩ := List.getElem?_eq_some_iff.mp here
  exact List.drop_eq_getElem_cons inside

theorem between_cons {lines : List Line} {low high : Nat} {line : Line}
    (here : lines[low]? = some line) (inside : low < high)
    : between lines low high = line :: between lines (low + 1) high := by
  have length : high - low = high - (low + 1) + 1 := by omega
  simp [between, drop_of_getElem? here, length]

theorem between_append {lines : List Line} {low middle high : Nat} (le : low ≤ middle)
    (le_high : middle ≤ high)
    : between lines low high = between lines low middle ++ between lines middle high := by
  have length : high - low = middle - low + (high - middle) := by omega
  unfold between
  rw [length, List.take_add, List.drop_drop, Nat.add_sub_cancel' le]

/-- A scan from `index` on, inside of `nested` inner blocks, finds what is left of a block. -/
inductive Scans (lines : List Line) (names : List String) : Nat → Nat → Block → Prop where
  | opening {nested index line block} (here : lines[index]? = some line)
    (opens : line.isOpening = true) (rest : Scans lines names (nested + 1) (index + 1) block)
    : Scans lines names nested index block
  | closing {nested index line block} (here : lines[index]? = some line)
    (closes : line.isTerminator = true) (rest : Scans lines names nested (index + 1) block)
    : Scans lines names (nested + 1) index block
  | close {index line} (here : lines[index]? = some line) (closes : line.isTerminator = true)
    : Scans lines names 0 index ⟨[], index⟩
  | label {index line guard block} (here : lines[index]? = some line)
    (opensNot : line.isOpening = false) (closesNot : line.isTerminator = false)
    (labels : line.branch? names = some guard)
    (rest : Scans lines names 0 (index + 1) block)
    : Scans lines names 0 index { block with labels := ⟨index, guard⟩ :: block.labels }
  | other {nested index line block} (here : lines[index]? = some line)
    (opensNot : line.isOpening = false) (closesNot : line.isTerminator = false)
    (labelsNot : nested = 0 → line.branch? names = none)
    (rest : Scans lines names nested (index + 1) block)
    : Scans lines names nested index block

/-- What is found is found by a scan, by induction on the lines. -/
theorem scans_of_scanFrom {lines : List Line} {names : List String} {nested index : Nat}
    {block : Block} (found : scanFrom names nested index (lines.drop index) = some block)
    : Scans lines names nested index block := by
  generalize remaining : lines.drop index = left at found
  induction left generalizing nested index block with
  | nil => exact nomatch found
  | cons line rest ih =>
      obtain ⟨here, dropped⟩ := drop_eq_cons remaining
      cases opens : line.isOpening with
      | true =>
          rw [scanFrom_opening opens] at found
          exact .opening here opens (ih dropped found)
      | false =>
          cases closes : line.isTerminator with
          | true =>
              cases nested with
              | zero =>
                  rw [scanFrom_terminator_zero closes] at found
                  obtain rfl := Option.some.inj found
                  exact .close here closes
              | succ nested =>
                  rw [scanFrom_terminator_succ closes] at found
                  exact .closing here closes (ih dropped found)
          | false =>
              by_cases labels : nested = 0 ∧ (line.branch? names).isSome
              · obtain ⟨rfl, some⟩ := labels
                obtain ⟨guard, labelled⟩ := Option.isSome_iff_exists.mp some
                rw [scanFrom_label opens closes labelled] at found
                obtain ⟨others, scanned, rfl⟩ := Option.map_eq_some_iff.mp found
                exact .label here opens closes labelled (ih dropped scanned)
              · have labelsNot : nested = 0 → line.branch? names = none := by
                  intro zero
                  by_contra some
                  exact labels ⟨zero, Option.isSome_iff_ne_none.mpr some⟩
                rw [scanFrom_other opens closes labelsNot] at found
                exact .other here opens closes labelsNot (ih dropped found)

-----------------------------------------------------------------------------------------
-- Where a body stops
-----------------------------------------------------------------------------------------

/-- A scan at `index`, at a depth of `nested` inner blocks, comes back to depth zero at the label or
the closing tag at `stop`.
-/
inductive StopsAt (lines : List Line) (names : List String) : Nat → Nat → Nat → Prop where
  | opening {nested index stop line} (here : lines[index]? = some line)
    (opens : line.isOpening = true) (rest : StopsAt lines names (nested + 1) (index + 1) stop)
    : StopsAt lines names nested index stop
  | closing {nested index stop line} (here : lines[index]? = some line)
    (closes : line.isTerminator = true) (rest : StopsAt lines names nested (index + 1) stop)
    : StopsAt lines names (nested + 1) index stop
  | other {nested index stop line} (here : lines[index]? = some line)
    (opensNot : line.isOpening = false) (closesNot : line.isTerminator = false)
    (labelsNot : nested = 0 → line.branch? names = none)
    (rest : StopsAt lines names nested (index + 1) stop)
    : StopsAt lines names nested index stop
  | close {index line} (here : lines[index]? = some line) (closes : line.isTerminator = true)
    : StopsAt lines names 0 index index
  | label {index line guard} (here : lines[index]? = some line)
    (opensNot : line.isOpening = false) (closesNot : line.isTerminator = false)
    (labels : line.branch? names = some guard)
    : StopsAt lines names 0 index index

namespace StopsAt

variable {lines : List Line} {names : List String} {nested index stop : Nat} {line : Line}

/-- A scan goes forward to a line that is there, by induction on its steps. -/
theorem bounds (h : StopsAt lines names nested index stop)
    : index ≤ stop ∧ stop < lines.length := by
  induction h with
  | opening _ _ _ ih | closing _ _ _ ih | other _ _ _ _ _ ih => exact ⟨by omega, ih.2⟩
  | close here _ | label here _ _ _ =>
      exact ⟨Nat.le_refl _, (List.getElem?_eq_some_iff.mp here).1⟩

/-- After an opening tag the scan is one block deeper, by cases on the step. -/
theorem after_opening (h : StopsAt lines names nested index stop) (here : lines[index]? = some line)
    (opens : line.isOpening = true)
    : StopsAt lines names (nested + 1) (index + 1) stop := by
  cases h with
  | opening _ _ rest => exact rest
  | closing found closes _ | close found closes =>
      obtain rfl := Option.some.inj (here.symm.trans found)
      rw [not_isOpening_of_isTerminator closes] at opens
      exact Bool.noConfusion opens
  | other found opensNot _ _ _ | label found opensNot _ _ =>
      obtain rfl := Option.some.inj (here.symm.trans found)
      rw [opensNot] at opens
      exact Bool.noConfusion opens

/-- After a closing tag inside an inner block the scan is one block less deep, by cases on the step.
-/
theorem after_terminator (h : StopsAt lines names (nested + 1) index stop)
    (here : lines[index]? = some line) (closes : line.isTerminator = true)
    : StopsAt lines names nested (index + 1) stop := by
  cases h with
  | closing _ _ rest => exact rest
  | opening found opens _ =>
      obtain rfl := Option.some.inj (here.symm.trans found)
      rw [not_isOpening_of_isTerminator closes] at opens
      exact Bool.noConfusion opens
  | other found _ closesNot _ _ =>
      obtain rfl := Option.some.inj (here.symm.trans found)
      rw [closesNot] at closes
      exact Bool.noConfusion closes

/-- After any other line inside an inner block the scan is as deep as before, by cases on the step.
-/
theorem after_other (h : StopsAt lines names (nested + 1) index stop)
    (here : lines[index]? = some line) (opensNot : line.isOpening = false)
    (closesNot : line.isTerminator = false)
    : StopsAt lines names (nested + 1) (index + 1) stop := by
  cases h with
  | other _ _ _ _ rest => exact rest
  | opening found opens _ =>
      obtain rfl := Option.some.inj (here.symm.trans found)
      rw [opensNot] at opens
      exact Bool.noConfusion opens
  | closing found closes _ =>
      obtain rfl := Option.some.inj (here.symm.trans found)
      rw [closesNot] at closes
      exact Bool.noConfusion closes

theorem after_any (h : StopsAt lines names nested index stop) (before : index < stop)
    : ∃ depth, StopsAt lines names depth (index + 1) stop := by
  cases h with
  | opening _ _ rest => exact ⟨_, rest⟩
  | closing _ _ rest => exact ⟨_, rest⟩
  | other _ _ _ _ rest => exact ⟨_, rest⟩
  | close _ _ | label _ _ _ _ => exact absurd before (Nat.lt_irrefl _)

end StopsAt

-----------------------------------------------------------------------------------------
-- Blocks inside a body
-----------------------------------------------------------------------------------------

/-- An option block closes before the body that it stands in stops, by induction on its lines. -/
theorem StopsAt.after_choicesFrom {lines : List Line} {names : List String}
    {nested index stop close : Nat} {choices : List String}
    (h : StopsAt lines names (nested + 1) index stop)
    (found : choicesFrom index (lines.drop index) = some (choices, close))
    : close < stop ∧ ∃ depth, StopsAt lines names depth (close + 1) stop := by
  generalize remaining : lines.drop index = left at found
  induction left generalizing nested index choices with
  | nil => exact nomatch found
  | cons line rest ih =>
      obtain ⟨here, dropped⟩ := drop_eq_cons remaining
      rw [choicesFrom] at found
      split at found
      · next closes =>
          obtain ⟨-, rfl⟩ := Prod.mk.inj (Option.some.inj found)
          have later := h.after_terminator here closes
          exact ⟨later.bounds.1, nested, later⟩
      · next closesNot =>
          obtain ⟨⟨others, last⟩, inner, same⟩ := Option.map_eq_some_iff.mp found
          obtain ⟨-, rfl⟩ := Prod.mk.inj same
          cases opens : line.isOpening with
          | true => exact ih (h.after_opening here opens) dropped inner
          | false =>
              exact ih (h.after_other here opens (Bool.eq_false_iff.mpr closesNot)) dropped inner

/-- A choices block closes before the body that it stands in stops: the outer scan is always deeper
than the inner one. By induction on the inner scan.
-/
theorem Scans.close_lt {lines : List Line} {names : List String} {inner index stop : Nat}
    {block : Block} (scan : Scans lines names inner index block) {outer : Nat}
    (deeper : inner ≤ outer) (h : StopsAt lines names (outer + 1) index stop)
    : block.close < stop ∧ ∃ depth, StopsAt lines names depth (block.close + 1) stop := by
  induction scan generalizing outer with
  | opening here opens _ ih => exact ih (Nat.succ_le_succ deeper) (h.after_opening here opens)
  | closing here closes _ ih =>
      have later := h.after_terminator here closes
      obtain ⟨outer, rfl⟩ := Nat.exists_eq_succ_of_ne_zero (by omega : outer ≠ 0)
      exact ih (Nat.le_of_succ_le_succ deeper) later
  | close here closes =>
      have later := h.after_terminator here closes
      exact ⟨later.bounds.1, outer, later⟩
  | label here opensNot closesNot _ _ ih =>
      exact ih deeper (h.after_other here opensNot closesNot)
  | other here opensNot closesNot _ _ ih =>
      exact ih deeper (h.after_other here opensNot closesNot)

theorem Scans.close_lt_length {lines : List Line} {names : List String} {nested index : Nat}
    {block : Block} (scan : Scans lines names nested index block)
    : block.close < lines.length := by
  induction scan with
  | opening _ _ _ ih | closing _ _ _ ih | label _ _ _ _ _ ih | other _ _ _ _ _ ih => exact ih
  | close here _ => exact (List.getElem?_eq_some_iff.mp here).1

/-- An option block closes on a line that is there, by induction on its lines. -/
theorem lt_length_of_choicesFrom {lines : List Line} {index close : Nat} {choices : List String}
    (found : choicesFrom index (lines.drop index) = some (choices, close))
    : close < lines.length := by
  generalize remaining : lines.drop index = left at found
  induction left generalizing index choices with
  | nil => exact nomatch found
  | cons line rest ih =>
      obtain ⟨here, dropped⟩ := drop_eq_cons remaining
      rw [choicesFrom] at found
      split at found
      · obtain ⟨-, rfl⟩ := Prod.mk.inj (Option.some.inj found)
        exact (List.getElem?_eq_some_iff.mp here).1
      · obtain ⟨⟨others, last⟩, inner, same⟩ := Option.map_eq_some_iff.mp found
        obtain ⟨-, rfl⟩ := Prod.mk.inj same
        exact ih dropped inner

/-- The index at which labels or their block next come to an end: the first label, or else the
close.
-/
def stopOf (close : Nat) (labels : List Label) : Nat :=
  (labels.head?.map Label.index).getD close

/-- A scan first stops at the first label of its block or else at its close, by induction on it. -/
theorem Scans.stopsAt {lines : List Line} {names : List String} {nested index : Nat}
    {block : Block} (scan : Scans lines names nested index block)
    : StopsAt lines names nested index (stopOf block.close block.labels) := by
  induction scan with
  | opening here opens _ ih => exact .opening here opens ih
  | closing here closes _ ih => exact .closing here closes ih
  | close here closes => exact .close here closes
  | label here opensNot closesNot labels _ _ => exact .label here opensNot closesNot labels
  | other here opensNot closesNot labelsNot _ ih =>
      exact .other here opensNot closesNot labelsNot ih

/-- Branches follow one another from `low` on: each body stops at the label of the next branch, and
the last one at `close`.
-/
def Successive (lines : List Line) (names : List String) (close : Nat) : Nat → List Branch → Prop
  | low, [] => low ≤ close
  | low, branch :: rest =>
      low ≤ branch.label
      ∧ StopsAt lines names 0 branch.start branch.stop
      ∧ Successive lines names close branch.stop rest

/-- Branches that follow one another do so up to where their block closes, by induction on their
list.
-/
theorem Successive.le {lines : List Line} {names : List String} {close low : Nat}
    {branches : List Branch} (successive : Successive lines names close low branches)
    : low ≤ close := by
  induction branches generalizing low with
  | nil => exact successive
  | cons branch rest ih =>
      obtain ⟨le, stops, later⟩ := successive
      have body := stops.bounds.1
      have start : branch.start = branch.label + 1 := rfl
      have upTo := ih later
      omega

/-- Of branches that follow one another, each body stops at the latest at the label of any later
branch. By induction on their list.
-/
theorem Successive.ordered {lines : List Line} {names : List String} {close low : Nat}
    {branches : List Branch} (successive : Successive lines names close low branches)
    : (∀ branch ∈ branches,
        low ≤ branch.label
        ∧ StopsAt lines names 0 branch.start branch.stop
        ∧ branch.stop ≤ close)
      ∧ branches.Pairwise fun earlier later => earlier.stop ≤ later.label := by
  induction branches generalizing low with
  | nil => exact ⟨List.forall_mem_nil _, .nil⟩
  | cons branch rest ih =>
      obtain ⟨le, stops, later⟩ := successive
      obtain ⟨each, ordered⟩ := ih later
      have body := stops.bounds.1
      have start : branch.start = branch.label + 1 := rfl
      refine ⟨List.forall_mem_cons.mpr ⟨⟨le, stops, later.le⟩, ?_⟩, .cons ?_ ordered⟩
      · intro other member
        obtain ⟨behind, inner⟩ := each other member
        exact ⟨by omega, inner⟩
      · intro other member
        exact (each other member).1

/-- The branches of a block that a scan finds follow one another, the first from where the scan
first stops. By induction on the scan.
-/
theorem Scans.successive {lines : List Line} {names : List String} {nested index : Nat}
    {block : Block} (scan : Scans lines names nested index block)
    : Successive lines names block.close (stopOf block.close block.labels) block.branches := by
  induction scan with
  | opening _ _ _ ih | closing _ _ _ ih | other _ _ _ _ _ ih => exact ih
  | close _ _ => exact Nat.le_refl _
  | label _ _ _ _ rest ih => exact ⟨Nat.le_refl _, rest.stopsAt, ih⟩

/-- The branches of a choices block follow one another from its first label on. -/
theorem successive_of_scanBlock {lines : List Line} {names : List String} {opened start : Nat}
    {block : Block} (h : scanBlock lines names opened start = .ok block)
    : Successive lines names block.close start block.branches := by
  obtain ⟨first, guard, found, -, -, scanned, rfl⟩ := labels_of_scanBlock h
  have scan := scans_of_scanFrom scanned
  exact ⟨Nat.le_refl _, scan.stopsAt, scan.successive⟩

-----------------------------------------------------------------------------------------
-- Options of labels
-----------------------------------------------------------------------------------------

theorem option_mem_of_branch? {line : Line} {names : List String} {guard : Guard}
    (labels : line.branch? names = some guard)
    : guard.option ∈ names := by
  obtain ⟨⟨name, threshold⟩, parts, found⟩ := Option.bind_eq_some_iff.mp labels
  obtain ⟨value, -, rfl⟩ := Option.map_eq_some_iff.mp found
  exact (labelParts?_eq_some_iff.mp parts).2.2

theorem option_mem_of_guard {line : Line} {names : List String} {guard : Guard}
    (labels : line.guard names = .ok (some guard))
    : guard.option ∈ names := by
  obtain ⟨_, -, -, member, -⟩ := guard_eq_some_iff.mp labels
  exact member

/-- The labels that a scan finds are those of the given options, by induction on the scan. -/
theorem Scans.option_mem {lines : List Line} {names : List String} {nested index : Nat}
    {block : Block} (scans : Scans lines names nested index block)
    : ∀ label ∈ block.labels, label.guard.option ∈ names := by
  induction scans with
  | opening _ _ _ ih | closing _ _ _ ih | other _ _ _ _ _ ih => exact ih
  | close => exact List.forall_mem_nil _
  | label _ _ _ labels _ ih => exact List.forall_mem_cons.mpr ⟨option_mem_of_branch? labels, ih⟩

/-- The labels of a block ask for given options. -/
theorem option_mem_of_scanBlock {lines : List Line} {names : List String} {opened start : Nat}
    {block : Block} (found : scanBlock lines names opened start = .ok block)
    : ∀ label ∈ block.labels, label.guard.option ∈ names := by
  obtain ⟨first, guard, others, -, labels, scanned, rfl⟩ := labels_of_scanBlock found
  exact List.forall_mem_cons.mpr
    ⟨option_mem_of_guard labels, (scans_of_scanFrom scanned).option_mem⟩

end Line

end Dialogue
