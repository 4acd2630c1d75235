import Dialogue.Proofs.Script.Faults

/-! The extent of a choices block, told from the tags of its lines. A block closes where as many
tags have closed blocks as have opened them, its branches start at the labels that stand inside of
no inner block, and the bodies of the branches take up the rest of its lines.
-/

namespace Dialogue

-----------------------------------------------------------------------------------------
-- Lines of branches
-----------------------------------------------------------------------------------------

/-- The indices of a branch's lines: its label, then its body. -/
def Branch.indices (branch : Branch) : List Nat :=
  branch.label :: List.range' branch.start (branch.stop - branch.start)

/-- The lines of a branch are all those from its label up to where its body stops. -/
theorem Branch.indices_eq {branch : Branch} (inside : branch.label < branch.stop)
    : branch.indices = List.range' branch.label (branch.stop - branch.label) := by
  have length : branch.stop - branch.label = branch.stop - branch.start + 1 := by
    unfold Branch.start
    omega
  rw [length, List.range'_succ]
  rfl

namespace Block

theorem label_branchesUpTo (close : Nat) (labels : List Label)
    : (branchesUpTo close labels).map (fun branch => Label.mk branch.label branch.guard)
        = labels := by
  induction labels with
  | nil => rfl
  | cons label rest ih => rw [branchesUpTo, List.map_cons, ih]

/-- Branches take up all lines from the first label up to the close, each of them once and in order.
By induction on the labels behind the first.
-/
theorem indices_branchesUpTo {close : Nat} {label : Label} {rest : List Label}
    (sorted : (label :: rest).Pairwise fun first second => first.index < second.index)
    (inside : ∀ other ∈ label :: rest, other.index < close)
    : (branchesUpTo close (label :: rest)).flatMap Branch.indices
        = List.range' label.index (close - label.index) := by
  induction rest generalizing label with
  | nil => simpa [branchesUpTo] using Branch.indices_eq (inside label List.mem_cons_self)
  | cons next rest ih =>
      obtain ⟨before, later⟩ := List.pairwise_cons.mp sorted
      have up := before next List.mem_cons_self
      have low := inside next (List.mem_cons_of_mem _ List.mem_cons_self)
      have tail := ih later fun other member => inside other (List.mem_cons_of_mem _ member)
      have head : (Branch.mk label.guard label.index next.index).indices
          = List.range' label.index (next.index - label.index) :=
        Branch.indices_eq up
      have length : close - label.index = next.index - label.index + (close - next.index) := by
        omega
      rw [branchesUpTo, List.flatMap_cons, tail, length, ← List.range'_append_1,
        Nat.add_sub_cancel' (Nat.le_of_lt up)]
      exact congrArg (· ++ _) head

end Block

namespace Line

-----------------------------------------------------------------------------------------
-- Depth
-----------------------------------------------------------------------------------------

section Depth

variable {lines : List Line} {low high : Nat} {line : Line}

/-- How many blocks a line opens, less those that it closes. -/
def shift (line : Line) : Int :=
  if line.isOpening then 1 else if line.isTerminator then -1 else 0

theorem shift_of_isOpening (opens : line.isOpening = true) : line.shift = 1 :=
  if_pos opens

theorem shift_of_isTerminator (closes : line.isTerminator = true) : line.shift = -1 := by
  simp [shift, not_isOpening_of_isTerminator closes, closes]

theorem shift_of_other (opensNot : line.isOpening = false) (closesNot : line.isTerminator = false)
    : line.shift = 0 := by
  simp [shift, opensNot, closesNot]

/-- How many of the lines from one index up to another have the first tag of a block, less those
that are sole closing tags.
-/
def surplus (lines : List Line) (low high : Nat) : Int :=
  (between lines low high).countP isOpening - (between lines low high).countP isTerminator

/-- How deep a block is open behind the line at `index`, if its first label stands at `start`. -/
def depthAt (lines : List Line) (start index : Nat) : Int :=
  1 + surplus lines (start + 1) (index + 1)

@[simp] theorem surplus_self (lines : List Line) (low : Nat) : surplus lines low low = 0 := by
  simp [surplus]

/-- A line in front adds what it opens or closes, by cases on the line. -/
theorem surplus_eq (here : lines[low]? = some line) (inside : low < high)
    : surplus lines low high = line.shift + surplus lines (low + 1) high := by
  simp only [surplus, between_cons here inside, List.countP_cons]
  cases opens : line.isOpening with
  | true =>
      simp only [shift_of_isOpening opens, not_isTerminator_of_isOpening opens, reduceIte,
        Bool.false_eq_true]
      omega
  | false =>
      cases closes : line.isTerminator with
      | true =>
          simp only [shift_of_isTerminator closes, reduceIte, Bool.false_eq_true]
          omega
      | false =>
          simp only [shift_of_other opens closes, reduceIte, Bool.false_eq_true]
          omega

theorem surplus_append {middle : Nat} (le : low ≤ middle) (le_high : middle ≤ high)
    : surplus lines low high = surplus lines low middle + surplus lines middle high := by
  simp only [surplus, between_append le le_high, List.countP_append]
  omega

/-- Where no line closes a block, none is open that has not been opened. -/
theorem surplus_nonneg
    (closesNot : ∀ middle line,
      low ≤ middle → middle < high → lines[middle]? = some line → line.isTerminator = false)
    : 0 ≤ surplus lines low high := by
  have none : (between lines low high).countP isTerminator = 0 := by
    refine List.countP_eq_zero.mpr fun line member => ?_
    obtain ⟨offset, found⟩ := List.mem_iff_getElem?.mp member
    rw [between, List.getElem?_take] at found
    split at found
    · next before =>
        rw [List.getElem?_drop] at found
        simp [closesNot (low + offset) line (Nat.le_add_right low offset) (by omega) found]
    · cases found
  simp [surplus, none]

end Depth

-----------------------------------------------------------------------------------------
-- Closes and labels, counted
-----------------------------------------------------------------------------------------

/-- From `index` on, where `depth` blocks are open, the line at `close` is the first one to close
them all.
-/
structure ClosesAt (lines : List Line) (depth : Int) (index close : Nat) : Prop where
  le : index ≤ close
  back : depth + surplus lines index (close + 1) = 0
  inside
    : ∀ middle,
        index ≤ middle → middle < close → 0 < depth + surplus lines index (middle + 1)

/-- From `index` on, where `depth` inner blocks are open, a label stands outside of all inner
blocks, on a line that states its guard and does not have the first tag of a block.
-/
structure StandsAt (lines : List Line) (names : List String) (depth : Int) (index : Nat)
    (label : Label)
    : Prop where
  le : index ≤ label.index
  outermost : depth + surplus lines index label.index = 0
  states
    : ∃ line,
        lines[label.index]? = some line
        ∧ line.isOpening = false
        ∧ line.StatesGuard names label.guard

section Steps

variable {lines : List Line} {names : List String} {depth : Int} {index close : Nat} {line : Line}

/-- A line that leaves some block open leaves the close where it is. -/
theorem ClosesAt.of_succ (here : lines[index]? = some line) (deep : 0 < depth + line.shift)
    (later : ClosesAt lines (depth + line.shift) (index + 1) close)
    : ClosesAt lines depth index close := by
  obtain ⟨le, back, inside⟩ := later
  refine ⟨Nat.le_of_succ_le le, ?_, ?_⟩
  · rw [surplus_eq here (by omega)]
    omega
  · intro middle low high
    rw [surplus_eq here (by omega)]
    rcases Nat.eq_or_lt_of_le low with same | behind
    · rw [same, surplus_self]
      omega
    · have deeper := inside middle behind high
      omega

/-- A label stands on the line at hand or behind it. -/
theorem standsAt_iff (here : lines[index]? = some line) {label : Label}
    : StandsAt lines names depth index label
      ↔ (label.index = index
            ∧ depth = 0
            ∧ line.isOpening = false
            ∧ line.StatesGuard names label.guard)
        ∨ StandsAt lines names (depth + line.shift) (index + 1) label := by
  constructor
  · intro ⟨le, outermost, states⟩
    rcases Nat.eq_or_lt_of_le le with same | behind
    · obtain ⟨found, there, opensNot, guarded⟩ := states
      rw [← same] at there outermost
      obtain rfl := Option.some.inj (here.symm.trans there)
      rw [surplus_self] at outermost
      exact Or.inl ⟨same.symm, by omega, opensNot, guarded⟩
    · rw [surplus_eq here behind] at outermost
      exact Or.inr ⟨behind, by omega, states⟩
  · intro stands
    rcases stands with ⟨same, shallow, opensNot, guarded⟩ | ⟨le, outermost, states⟩
    · refine ⟨Nat.le_of_eq same.symm, ?_, line, ?_, opensNot, guarded⟩
      · rw [same, surplus_self, shallow]
        rfl
      · rw [same, here]
    · refine ⟨Nat.le_of_succ_le le, ?_, states⟩
      rw [surplus_eq here le]
      omega

/-- A line that is no label outside of all inner blocks leaves the labels where they are. -/
theorem standsAt_iff_succ (here : lines[index]? = some line)
    (labelsNot : depth = 0 → line.isOpening = false → line.branch? names = none) {label : Label}
    : StandsAt lines names depth index label
      ↔ StandsAt lines names (depth + line.shift) (index + 1) label := by
  refine (standsAt_iff here).trans (or_iff_right ?_)
  intro ⟨_, shallow, opensNot, guarded⟩
  cases (labelsNot shallow opensNot).symm.trans (branch?_eq_some_iff.mpr guarded)

/-- From `index`, where `depth` inner blocks are open, up to `close`, a scan takes other lines as it
takes these: they open or close blocks alike, and are the same labels where no inner block is open.
-/
def ScannedAlike (lines others : List Line) (names : List String) (depth : Int) (index close : Nat)
    : Prop :=
  ∀ middle line,
    index ≤ middle
    → middle ≤ close
    → lines[middle]? = some line
    → ∃ other,
        others[middle]? = some other
        ∧ other.isOpening = line.isOpening
        ∧ other.isTerminator = line.isTerminator
        ∧ (depth + surplus lines index middle = 0 → other.branch? names = line.branch? names)

section Alike

variable {others : List Line}

theorem ScannedAlike.head (alike : ScannedAlike lines others names depth index close)
    (here : lines[index]? = some line) (le : index ≤ close)
    : ∃ other,
        others.drop index = other :: others.drop (index + 1)
        ∧ other.isOpening = line.isOpening
        ∧ other.isTerminator = line.isTerminator
        ∧ (depth = 0 → other.branch? names = line.branch? names) := by
  obtain ⟨other, there, opens, closes, labels⟩ := alike index line (Nat.le_refl index) le here
  rw [surplus_self, Int.add_zero] at labels
  exact ⟨other, drop_of_getElem? there, opens, closes, labels⟩

theorem ScannedAlike.tail (alike : ScannedAlike lines others names depth index close)
    (here : lines[index]? = some line)
    : ScannedAlike lines others names (depth + line.shift) (index + 1) close := by
  intro middle found behind le there
  rw [Int.add_assoc, ← surplus_eq here behind]
  exact alike middle found (Nat.le_of_succ_le behind) le there

/-- A scan takes lines that are the same in the same way. -/
theorem scannedAlike_of_same
    (same : ∀ middle, index ≤ middle → middle ≤ close → others[middle]? = lines[middle]?)
    : ScannedAlike lines others names depth index close := by
  intro middle line after le here
  exact ⟨line, (same middle after le).trans here, rfl, rfl, fun _ => rfl⟩

end Alike

end Steps

namespace Scans

variable {lines : List Line} {names : List String} {nested index : Nat} {block : Block}

/-- A scan finds the close of its block, by induction on the scan. -/
theorem closesAt (scan : Scans lines names nested index block)
    : ClosesAt lines (nested + 1) index block.close := by
  induction scan with
  | opening here opens _ ih =>
      have up := shift_of_isOpening opens
      exact .of_succ here (by omega) (by simpa [up] using ih)
  | closing here closes _ ih =>
      have down := shift_of_isTerminator closes
      exact .of_succ here (by omega) (by simpa [down] using ih)
  | close here closes =>
      refine ⟨Nat.le_refl _, ?_, fun middle low high => absurd high (Nat.not_lt.mpr low)⟩
      rw [surplus_eq here (Nat.lt_succ_self _), shift_of_isTerminator closes, surplus_self]
      rfl
  | label here opensNot closesNot _ _ ih | other here opensNot closesNot _ _ ih =>
      have level := shift_of_other opensNot closesNot
      exact .of_succ here (by omega) (by simpa [level] using ih)

/-- A scan finds the labels in front of the close of its block, by induction on the scan. -/
theorem mem_labels_iff (scan : Scans lines names nested index block) {label : Label}
    : label ∈ block.labels
      ↔ StandsAt lines names nested index label ∧ label.index < block.close := by
  induction scan with
  | opening here opens _ ih =>
      rw [ih, standsAt_iff_succ here fun _ opensNot => by simp [opens] at opensNot,
        shift_of_isOpening opens]
      rfl
  | closing here closes _ ih =>
      rw [ih, standsAt_iff_succ here fun shallow => by omega, shift_of_isTerminator closes]
      simp
  | close here closes =>
      refine iff_of_false List.not_mem_nil ?_
      intro ⟨stands, before⟩
      exact absurd before (Nat.not_lt.mpr stands.le)
  | @label index line guard block here opensNot closesNot labels rest ih =>
      have before : index < block.close := rest.closesAt.le
      have isHead
          : label = ⟨index, guard⟩ ↔ label.index = index ∧ line.StatesGuard names label.guard := by
        obtain ⟨position, stated⟩ := label
        simp [← branch?_eq_some_iff, labels, eq_comm]
      rw [List.mem_cons, ih, isHead, standsAt_iff here, shift_of_other opensNot closesNot,
        Int.add_zero]
      constructor
      · intro found
        rcases found with ⟨same, guarded⟩ | ⟨stands, inside⟩
        · exact ⟨Or.inl ⟨same, rfl, opensNot, guarded⟩, same ▸ before⟩
        · exact ⟨Or.inr stands, inside⟩
      · intro ⟨stands, inside⟩
        rcases stands with ⟨same, -, -, guarded⟩ | later
        · exact Or.inl ⟨same, guarded⟩
        · exact Or.inr ⟨later, inside⟩
  | other here opensNot closesNot labelsNot _ ih =>
      rw [ih, standsAt_iff_succ here fun shallow _ => labelsNot (by omega),
        shift_of_other opensNot closesNot]
      simp

/-- The labels that a scan finds are in the order of their lines, by induction on the scan. -/
theorem sorted (scan : Scans lines names nested index block)
    : block.labels.Pairwise fun first second => first.index < second.index := by
  induction scan with
  | opening _ _ _ ih | closing _ _ _ ih | other _ _ _ _ _ ih => exact ih
  | close _ _ => exact .nil
  | label _ _ _ _ rest ih =>
      refine .cons ?_ ih
      intro later member
      exact (rest.mem_labels_iff.mp member).1.le

/-- A scan finds the same block in all lines that it takes in the same way up to the close, by
induction on the scan.
-/
theorem scanFrom_eq (scan : Scans lines names nested index block) {others : List Line}
    (alike : ScannedAlike lines others names nested index block.close)
    : Line.scanFrom names nested index (others.drop index) = some block := by
  induction scan with
  | opening here opens rest ih =>
      obtain ⟨other, dropped, sameOpens, -, -⟩ :=
        alike.head here (Nat.le_of_succ_le rest.closesAt.le)
      have later := shift_of_isOpening opens ▸ alike.tail here
      rw [dropped, scanFrom_opening (sameOpens.trans opens), ih (by simpa using later)]
  | closing here closes rest ih =>
      obtain ⟨other, dropped, -, sameCloses, -⟩ :=
        alike.head here (Nat.le_of_succ_le rest.closesAt.le)
      have later := shift_of_isTerminator closes ▸ alike.tail here
      rw [dropped, scanFrom_terminator_succ (sameCloses.trans closes), ih (by simpa using later)]
  | close here closes =>
      obtain ⟨other, dropped, -, sameCloses, -⟩ := alike.head here (Nat.le_refl _)
      rw [dropped, scanFrom_terminator_zero (sameCloses.trans closes)]
  | label here opensNot closesNot labels rest ih =>
      obtain ⟨other, dropped, sameOpens, sameCloses, sameLabels⟩ :=
        alike.head here (Nat.le_of_succ_le rest.closesAt.le)
      have later := shift_of_other opensNot closesNot ▸ alike.tail here
      rw [dropped, scanFrom_label (sameOpens.trans opensNot) (sameCloses.trans closesNot)
        ((sameLabels rfl).trans labels), ih (by simpa using later)]
      rfl
  | @other nested index line block here opensNot closesNot labelsNot rest ih =>
      obtain ⟨other, dropped, sameOpens, sameCloses, sameLabels⟩ :=
        alike.head here (Nat.le_of_succ_le rest.closesAt.le)
      have later := shift_of_other opensNot closesNot ▸ alike.tail here
      have noLabel : nested = 0 → other.branch? names = none :=
        fun zero => (sameLabels (by simp [zero])).trans (labelsNot zero)
      rw [dropped, scanFrom_other (sameOpens.trans opensNot) (sameCloses.trans closesNot) noLabel,
        ih (by simpa using later)]

end Scans

-----------------------------------------------------------------------------------------
-- Main statement
-----------------------------------------------------------------------------------------

section Extent

variable {lines : List Line} {names : List String} {opened start : Nat} {first : Line}
  {guard : Guard} {block : Block}

/-- The extent of the block whose first label, at `start`, states this guard. -/
structure Extent (lines : List Line) (names : List String) (start : Nat) (guard : Guard)
    (block : Block)
    : Prop where
  after : start < block.close
  /-- The block closes where its depth is first back at zero. -/
  back : depthAt lines start block.close = 0
  least : ∀ index, start < index → depthAt lines start index = 0 → block.close ≤ index
  /-- Behind the first label, the labels are the lines at depth one that state a guard and do not
  have the first tag of a block, in order.
  -/
  labels
    : ∃ later,
        block.labels = ⟨start, guard⟩ :: later
        ∧ (later.Pairwise fun first second => first.index < second.index)
        ∧ ∀ label,
            label ∈ later
              ↔ start < label.index
                ∧ label.index < block.close
                ∧ depthAt lines start (label.index - 1) = 1
                ∧ ∃ line,
                    lines[label.index]? = some line
                    ∧ line.isOpening = false
                    ∧ line.StatesGuard names label.guard
  branches
    : block.branches.map (fun branch => Label.mk branch.label branch.guard) = block.labels
  /-- Every body starts no later than it stops, and stops no later than any later branch starts. -/
  bodies : ∀ branch ∈ block.branches, branch.start ≤ branch.stop
  ordered : block.branches.Pairwise fun earlier later => earlier.stop ≤ later.label
  /-- The branches have all lines from the first label up to the close, each of them once. -/
  indices
    : block.branches.flatMap Branch.indices = List.range' start (block.close - start)

/-- A block is found if and only if its depth comes back to zero. -/
theorem exists_scanBlock_iff_depthAt (here : lines[start]? = some first)
    (labels : first.StatesGuard names guard)
    : (∃ block, scanBlock lines names opened start = .ok block)
      ↔ ∃ index, start < index ∧ depthAt lines start index = 0 := by
  have found
      : (∃ block, scanBlock lines names opened start = .ok block)
        ↔ scanFrom names 0 (start + 1) (lines.drop (start + 1)) ≠ none := by
    simp only [scanBlock, here, guard_eq_some_iff.mpr labels]
    cases scanFrom names 0 (start + 1) (lines.drop (start + 1)) <;> simp
  rw [found]
  constructor
  · intro some
    obtain ⟨block, scanned⟩ := Option.ne_none_iff_exists'.mp some
    obtain ⟨le, back, -⟩ := (scans_of_scanFrom scanned).closesAt
    exact ⟨block.close, le, by simpa [depthAt] using back⟩
  · intro zero none
    obtain ⟨index, after, back⟩ := zero
    have unclosed := scanFrom_eq_none_iff.mp none
    have more := unclosed (between lines (start + 1) (index + 1)) (List.take_prefix _ _)
    simp only [depthAt, surplus] at back
    omega

/-- A block that is found has its extent. -/
theorem extent_of_scanBlock (here : lines[start]? = some first)
    (labels : first.StatesGuard names guard)
    (found : scanBlock lines names opened start = .ok block)
    : Extent lines names start guard block := by
  obtain ⟨line, stated, others, there, states, scanned, rfl⟩ := labels_of_scanBlock found
  obtain rfl := Option.some.inj (here.symm.trans there)
  obtain rfl := Option.some.inj
    (Except.ok.inj ((guard_eq_some_iff.mpr labels).symm.trans states))
  have scan := scans_of_scanFrom scanned
  obtain ⟨after, back, inside⟩ := scan.closesAt
  have sorted := scan.sorted
  have behind (label : Label) (member : label ∈ others.labels)
      : start < label.index ∧ label.index < others.close := by
    obtain ⟨stands, before⟩ := scan.mem_labels_iff.mp member
    exact ⟨stands.le, before⟩
  obtain ⟨each, ordered⟩ := (successive_of_scanBlock found).ordered
  exact {
    after
    back := by simpa [depthAt] using back
    least := by
      intro index low zero
      by_contra before
      have deep := inside index low (Nat.lt_of_not_le before)
      simp only [depthAt] at zero
      omega
    labels := by
      refine ⟨others.labels, rfl, sorted, ?_⟩
      intro label
      rw [scan.mem_labels_iff]
      constructor
      · intro ⟨⟨low, outermost, states⟩, before⟩
        refine ⟨low, before, ?_, states⟩
        rw [depthAt, Nat.sub_add_cancel (by omega)]
        omega
      · intro ⟨low, before, outermost, states⟩
        rw [depthAt, Nat.sub_add_cancel (by omega)] at outermost
        exact ⟨⟨low, by omega, states⟩, before⟩
    branches := Block.label_branchesUpTo _ _
    bodies := fun branch member => (each branch member).2.1.bounds.1
    ordered
    indices := by
      refine Block.indices_branchesUpTo (List.pairwise_cons.mpr ⟨?_, sorted⟩) ?_
      · exact fun label member => (behind label member).1
      · exact List.forall_mem_cons.mpr ⟨after, fun label member => (behind label member).2⟩
  }

/-- A block is found in all lines that have its first label and that a scan takes in the same way
from there up to its close.
-/
theorem scanBlock_of_alike (found : scanBlock lines names opened start = .ok block)
    {others : List Line} (same : others[start]? = lines[start]?)
    (alike : ScannedAlike lines others names 0 (start + 1) block.close) (opening : Nat)
    : scanBlock others names opening start = .ok block := by
  obtain ⟨first, guard, rest, here, states, scanned, rfl⟩ := labels_of_scanBlock found
  have again := (scans_of_scanFrom scanned).scanFrom_eq alike
  simp only [scanBlock, same.trans here, states, again]

/-- A block is found in all lines that are the same from its first label up to its close. -/
theorem scanBlock_of_same (found : scanBlock lines names opened start = .ok block)
    {others : List Line}
    (same : ∀ index, start ≤ index → index ≤ block.close → others[index]? = lines[index]?)
    (opening : Nat)
    : scanBlock others names opening start = .ok block := by
  have after := (scanBlock_bounds found).1
  have first := same start (Nat.le_refl start) (Nat.le_of_lt after)
  refine scanBlock_of_alike found first (scannedAlike_of_same ?_) opening
  exact fun middle behind => same middle (Nat.le_of_succ_le behind)

/-- The lines behind the close make no difference to the block that is found. -/
theorem scanBlock_of_take (found : scanBlock lines names opened start = .ok block)
    {others : List Line} (same : others.take (block.close + 1) = lines.take (block.close + 1))
    (opening : Nat)
    : scanBlock others names opening start = .ok block := by
  refine scanBlock_of_same found (fun index _ le => ?_) opening
  have inside : index < block.close + 1 := Nat.lt_succ_of_le le
  rw [← List.getElem?_take_of_lt inside, same, List.getElem?_take_of_lt inside]

/-- From a first label that states a guard, a block is found if and only if its depth comes back to
zero. It is found in its extent, and the lines behind its close make no difference to it.
-/
theorem scanBlock_exact (here : lines[start]? = some first) (labels : first.StatesGuard names guard)
    : ((∃ block, scanBlock lines names opened start = .ok block)
        ↔ ∃ index, start < index ∧ depthAt lines start index = 0)
      ∧ ∀ block,
          scanBlock lines names opened start = .ok block
          → Extent lines names start guard block
            ∧ ∀ others opening,
                others.take (block.close + 1) = lines.take (block.close + 1)
                → scanBlock others names opening start = .ok block := by
  refine ⟨exists_scanBlock_iff_depthAt here labels, ?_⟩
  intro block found
  refine ⟨extent_of_scanBlock here labels found, ?_⟩
  intro others opening same
  exact scanBlock_of_take found same opening

/-- A block with two branches, of which the first holds a block with a label for the same option. -/
def twofoldLines : List Line :=
  [⟨1, ["choices"], ""⟩, ⟨2, ["pick,1"], ""⟩, ⟨3, ["choices"], ""⟩, ⟨4, ["pick,1"], ""⟩,
    ⟨5, ["END"], ""⟩, ⟨6, ["/"], ""⟩, ⟨7, ["A"], "One"⟩, ⟨8, ["pick,2"], ""⟩, ⟨9, ["A"], "Two"⟩,
    ⟨10, ["/"], ""⟩, ⟨11, ["A"], "After"⟩]

/-- The label of the inner block is none of the outer block, and neither is the closing tag, so the
bodies are the lines from the third to the seventh and the ninth.
-/
theorem twofold_scan_exact
    : decodeAll
          [(1, "<choices>"), (2, "<pick,1>"), (3, "<choices>"), (4, "<pick,1>"), (5, "<END>"),
            (6, "</>"), (7, "<A>One"), (8, "<pick,2>"), (9, "<A>Two"), (10, "</>"),
            (11, "<A>After")]
        = .ok twofoldLines
      ∧ depthAt twofoldLines 1 9 = 0
      ∧ ∃ block,
          scanBlock twofoldLines ["pick"] 0 1 = .ok block
          ∧ block.branches = [⟨⟨"pick", 1⟩, 1, 7⟩, ⟨⟨"pick", 2⟩, 7, 9⟩]
          ∧ Extent twofoldLines ["pick"] 1 ⟨"pick", 1⟩ block
          ∧ scanBlock (twofoldLines.take 10) ["pick"] 0 1 = .ok block := by
  have labels : twofoldLines[1].StatesGuard ["pick"] ⟨"pick", 1⟩ :=
    guard_eq_some_iff.mp (by decide +kernel)
  have zero : depthAt twofoldLines 1 9 = 0 := by decide +kernel
  obtain ⟨found, exact⟩ := @scanBlock_exact twofoldLines ["pick"] 0 1 _ _ rfl labels
  obtain ⟨block, scanned⟩ := found.mpr ⟨9, by decide, zero⟩
  have given
      : scanBlock twofoldLines ["pick"] 0 1
        = .ok ⟨[⟨1, ⟨"pick", 1⟩⟩, ⟨7, ⟨"pick", 2⟩⟩], 9⟩ := by
    decide +kernel
  obtain rfl := Except.ok.inj (given.symm.trans scanned)
  obtain ⟨extent, again⟩ := exact _ scanned
  exact ⟨by decide +kernel, zero, _, scanned, rfl, extent, again _ 0 (by simp)⟩

end Extent

end Line

end Dialogue
