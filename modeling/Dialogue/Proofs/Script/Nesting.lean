import Dialogue.Proofs.Script.Containment
import Dialogue.Proofs.Script.Statements

/-! The nesting of blocks, read from what the lines open, and the counter that a scan keeps instead.
The counter goes by first tags alone. So the two find the same end of a block unless a line on the
way opens nothing although its first tag is that of a block.
-/

namespace Dialogue

namespace Line

-----------------------------------------------------------------------------------------
-- Closing tags
-----------------------------------------------------------------------------------------

/-- The first sole closing tag from `low` on is the line at `close`. -/
structure ClosesFirst (lines : List Line) (low close : Nat) : Prop where
  le : low ≤ close
  closes : ∃ line, lines[close]? = some line ∧ line.isTerminator = true
  before
    : ∀ index line,
        low ≤ index → index < close → lines[index]? = some line → line.isTerminator = false

namespace ClosesFirst

variable {lines : List Line} {low close : Nat} {line : Line}

theorem unique {other : Nat} (left : ClosesFirst lines low close)
    (right : ClosesFirst lines low other)
    : close = other := by
  obtain ⟨last, here, closes⟩ := left.closes
  obtain ⟨otherLast, otherHere, otherCloses⟩ := right.closes
  rcases Nat.lt_trichotomy close other with before | same | after
  · simp [right.before close last left.le before here] at closes
  · exact same
  · simp [left.before other otherLast right.le after otherHere] at otherCloses

theorem of_terminator (here : lines[low]? = some line) (closes : line.isTerminator = true)
    : ClosesFirst lines low low :=
  ⟨Nat.le_refl low, ⟨line, here, closes⟩, fun _ _ le lt => absurd lt (Nat.not_lt.mpr le)⟩

theorem exists_line (first : ClosesFirst lines low close) : ∃ line, lines[low]? = some line := by
  obtain ⟨last, found, -⟩ := first.closes
  have inside := Nat.lt_of_le_of_lt first.le (List.getElem?_eq_some_iff.mp found).1
  exact ⟨_, List.getElem?_eq_getElem inside⟩

/-- A line that does not close leaves the first closing tag where it is. -/
theorem succ_iff (here : lines[low]? = some line) (closesNot : line.isTerminator = false)
    : ClosesFirst lines low close ↔ ClosesFirst lines (low + 1) close := by
  constructor
  · intro h
    obtain ⟨last, found, closes⟩ := h.closes
    have notHere : low ≠ close := by
      rintro rfl
      obtain rfl := Option.some.inj (here.symm.trans found)
      simp [closesNot] at closes
    refine ⟨Nat.lt_of_le_of_ne h.le notHere, h.closes, ?_⟩
    intro index other after
    exact h.before index other (Nat.le_of_succ_le after)
  · intro h
    refine ⟨Nat.le_of_succ_le h.le, h.closes, ?_⟩
    intro index other after before found
    rcases Nat.eq_or_lt_of_le after with rfl | later
    · obtain rfl := Option.some.inj (here.symm.trans found)
      exact closesNot
    · exact h.before index other later before found

end ClosesFirst

/-- An option block has the lines up to the first sole closing tag as its choices, by induction on
them.
-/
theorem choicesFrom_eq_some_iff {lines : List Line} {low close : Nat} {choices : List String}
    : choicesFrom low (lines.drop low) = some (choices, close)
      ↔ ClosesFirst lines low close ∧ choices = (between lines low close).map choice := by
  generalize remaining : lines.drop low = left
  induction left generalizing low choices with
  | nil =>
      refine iff_of_false (by simp [choicesFrom]) ?_
      rintro ⟨first, -⟩
      obtain ⟨line, here, -⟩ := first.closes
      have inside := (List.getElem?_eq_some_iff.mp here).1
      have outside := List.drop_eq_nil_iff.mp remaining
      have le := first.le
      omega
  | cons line rest ih =>
      obtain ⟨here, dropped⟩ := drop_eq_cons remaining
      rw [choicesFrom]
      cases closes : line.isTerminator with
      | true =>
          have first := ClosesFirst.of_terminator here closes
          rw [if_pos rfl]
          constructor
          · intro same
            obtain ⟨rfl, rfl⟩ := Prod.mk.inj (Option.some.inj same)
            exact ⟨first, by simp⟩
          · rintro ⟨found, rfl⟩
            obtain rfl := first.unique found
            simp
      | false =>
          rw [if_neg (by simp), Option.map_eq_some_iff, ClosesFirst.succ_iff here closes]
          constructor
          · rintro ⟨⟨others, last⟩, inner, same⟩
            obtain ⟨rfl, rfl⟩ := Prod.mk.inj same
            obtain ⟨found, rfl⟩ := (ih dropped).mp inner
            exact ⟨found, by simp [between_cons here found.le]⟩
          · rintro ⟨found, rfl⟩
            refine ⟨(_, close), (ih dropped).mpr ⟨found, rfl⟩, ?_⟩
            simp [between_cons here found.le]

-----------------------------------------------------------------------------------------
-- What the lines open
-----------------------------------------------------------------------------------------

/-- From `index` on, a choices block closes on the line at `close`. Its lines are read for what they
open: a choices block, which is read in its turn, an option block, in which nothing opens up to the
first sole closing tag, or nothing. The strays are the lines that open nothing although their first
tag is that of a block.
-/
inductive BlockCloses (lines : List Line) : Nat → Nat → List Line → Prop where
  | close {index line} (here : lines[index]? = some line) (closes : line.isTerminator = true)
    : BlockCloses lines index index []
  | choices {index inner close line strays more} (here : lines[index]? = some line)
    (opens : line.tags = ["choices"]) (inside : BlockCloses lines (index + 1) inner strays)
    (rest : BlockCloses lines (inner + 1) close more)
    : BlockCloses lines index close (strays ++ more)
  | option {index inner close line more} (here : lines[index]? = some line)
    (opens : line.first? = some "option") (inside : ClosesFirst lines (index + 1) inner)
    (rest : BlockCloses lines (inner + 1) close more)
    : BlockCloses lines index close ((between lines (index + 1) inner).filter isOpening ++ more)
  | other {index close line more} (here : lines[index]? = some line)
    (closesNot : line.isTerminator = false) (choicesNot : line.tags ≠ ["choices"])
    (optionNot : line.first? ≠ some "option") (rest : BlockCloses lines (index + 1) close more)
    : BlockCloses lines index close ([line].filter isOpening ++ more)

/-- A block closes at or after the line that is read first, by induction on the reading. -/
theorem BlockCloses.le {lines : List Line} {index close : Nat} {strays : List Line}
    (block : BlockCloses lines index close strays)
    : index ≤ close := by
  induction block with
  | close _ _ => exact Nat.le_refl _
  | choices _ _ _ _ inner rest => omega
  | option _ _ inside _ rest =>
      have le := inside.le
      omega
  | other _ _ _ _ _ rest => omega

-----------------------------------------------------------------------------------------
-- The counter
-----------------------------------------------------------------------------------------

section Counter

variable {lines : List Line} {names : List String} {nested index close : Nat} {line : Line}

/-- Where a scan from `index` on, inside of `nested` inner blocks, finds the close of a block. -/
def scanClose (lines : List Line) (names : List String) (nested index : Nat) : Option Nat :=
  (scanFrom names nested index (lines.drop index)).map Block.close

/-- How a scan inside of `nested` inner blocks goes on from a closing tag. -/
def afterClose (lines : List Line) (names : List String) : (nested index : Nat) → Option Nat
  | 0, index => some index
  | nested + 1, index => scanClose lines names nested (index + 1)

theorem scanClose_terminator (here : lines[index]? = some line) (closes : line.isTerminator = true)
    : scanClose lines names nested index = afterClose lines names nested index := by
  rw [scanClose, drop_of_getElem? here]
  cases nested with
  | zero => simp [scanFrom_terminator_zero closes, afterClose]
  | succ nested => simp [scanFrom_terminator_succ closes, afterClose, scanClose]

theorem scanClose_opening (here : lines[index]? = some line) (opens : line.isOpening = true)
    : scanClose lines names nested index = scanClose lines names (nested + 1) (index + 1) := by
  rw [scanClose, drop_of_getElem? here, scanFrom_opening opens, scanClose]

theorem scanClose_other (here : lines[index]? = some line) (opensNot : line.isOpening = false)
    (closesNot : line.isTerminator = false)
    : scanClose lines names nested index = scanClose lines names nested (index + 1) := by
  rw [scanClose, drop_of_getElem? here, close_scanFrom_other opensNot closesNot, scanClose]

/-- All that a line can do to a scan that finds a close. -/
theorem scanClose_cases (found : scanClose lines names nested index = some close)
    : ∃ line,
        lines[index]? = some line
        ∧ (line.isTerminator = true
          ∨ (line.isTerminator = false
            ∧ ∃ depth, scanClose lines names depth (index + 1) = some close)) := by
  cases here : lines[index]? with
  | none =>
      have outside := List.drop_eq_nil_iff.mpr (List.getElem?_eq_none_iff.mp here)
      simp [scanClose, outside, scanFrom] at found
  | some line =>
      refine ⟨line, rfl, ?_⟩
      cases closes : line.isTerminator with
      | true => exact Or.inl rfl
      | false =>
          refine Or.inr ⟨rfl, ?_⟩
          cases opens : line.isOpening with
          | true => exact ⟨_, (scanClose_opening here opens).symm.trans found⟩
          | false => exact ⟨_, (scanClose_other here opens closes).symm.trans found⟩

/-- A scan finds no close before the line that it begins with. -/
theorem le_of_scanClose (found : scanClose lines names nested index = some close)
    : index ≤ close := by
  obtain ⟨block, scanned, rfl⟩ := Option.map_eq_some_iff.mp found
  exact (scanFrom_bounds scanned).1

/-- Inside an option block the counter goes up at every first tag of a block. By induction on the
lines of the option block.
-/
theorem ClosesFirst.scanClose_eq (first : ClosesFirst lines index close)
    : scanClose lines names nested index
        = afterClose lines names (nested + ((between lines index close).filter isOpening).length)
            close := by
  have le := first.le
  generalize distance : close - index = more
  induction more generalizing nested index with
  | zero =>
      obtain rfl : index = close := by omega
      obtain ⟨line, here, closes⟩ := first.closes
      simpa using scanClose_terminator here closes
  | succ more ih =>
      have lt : index < close := by omega
      obtain ⟨line, here⟩ := first.exists_line
      have closesNot := first.before index line (Nat.le_refl index) lt here
      have rest := (succ_iff here closesNot).mp first
      rw [between_cons here lt]
      cases opens : line.isOpening with
      | true =>
          rw [scanClose_opening here opens, ih rest rest.le (by omega)]
          simp [opens, Nat.add_assoc, Nat.add_comm 1]
      | false =>
          rw [scanClose_other here opens closesNot, ih rest rest.le (by omega)]
          simp [opens]

/-- At the close of a block the counter is off by the number of strays, by induction on the reading
of the block.
-/
theorem BlockCloses.scanClose_eq {strays : List Line} (block : BlockCloses lines index close strays)
    : scanClose lines names nested index
        = afterClose lines names (nested + strays.length) close := by
  induction block generalizing nested with
  | close here closes => exact scanClose_terminator here closes
  | @choices index inner close line strays more here opens _ _ ihInside ihRest =>
      have depth : nested + 1 + strays.length = nested + strays.length + 1 := by omega
      rw [scanClose_opening here (isOpening_of_tags opens), ihInside, depth, afterClose, ihRest,
        List.length_append, Nat.add_assoc]
  | @option index inner close line more here opens inside _ ihRest =>
      rw [scanClose_opening here (isOpening_of_first? opens), inside.scanClose_eq,
        Nat.add_right_comm, afterClose, ihRest, List.length_append, Nat.add_assoc]
  | @other index close line more here closesNot _ _ _ ihRest =>
      cases opens : line.isOpening with
      | true =>
          rw [scanClose_opening here opens, ihRest]
          simp [opens, Nat.add_assoc, Nat.add_comm 1]
      | false =>
          rw [scanClose_other here opens closesNot, ihRest]
          simp [opens]

/-- Where a scan finds a close there is a first closing tag, by induction on the lines that are
left.
-/
theorem exists_closesFirst (found : scanClose lines names nested index = some close)
    : ∃ first, ClosesFirst lines index first := by
  have le := le_of_scanClose found
  generalize distance : close - index = more
  induction more generalizing nested index with
  | zero =>
      obtain rfl : index = close := by omega
      obtain ⟨line, here, closes | ⟨-, depth, later⟩⟩ := scanClose_cases found
      · exact ⟨index, .of_terminator here closes⟩
      · have := le_of_scanClose later
        omega
  | succ more ih =>
      obtain ⟨line, here, closes | ⟨closesNot, depth, later⟩⟩ := scanClose_cases found
      · exact ⟨index, .of_terminator here closes⟩
      · obtain ⟨first, rest⟩ := ih later (le_of_scanClose later) (by omega)
        exact ⟨first, (ClosesFirst.succ_iff here closesNot).mpr rest⟩

/-- Where a scan finds a close, however deep it is, the block is also closed by its reading. By
induction on the lines that are left.
-/
theorem exists_blockCloses {nested index close : Nat}
    (found : scanClose lines names nested index = some close)
    : ∃ inner strays, BlockCloses lines index inner strays := by
  have le := le_of_scanClose found
  obtain ⟨line, here, closes | ⟨closesNot, -⟩⟩ := scanClose_cases found
  · exact ⟨index, [], .close here closes⟩
  by_cases choices : line.tags = ["choices"]
  · rw [scanClose_opening here (isOpening_of_tags choices)] at found
    have later := le_of_scanClose found
    obtain ⟨inner, strays, inside⟩ := exists_blockCloses found
    -- the scan is at least one block deep where the inner block closes, so it goes on behind it
    have depth : nested + 1 + strays.length = nested + strays.length + 1 := by omega
    rw [inside.scanClose_eq, depth, afterClose] at found
    have after := le_of_scanClose found
    have low := inside.le
    obtain ⟨outer, more, rest⟩ := exists_blockCloses found
    exact ⟨outer, _, .choices here choices inside rest⟩
  by_cases option : line.first? = some "option"
  · rw [scanClose_opening here (isOpening_of_first? option)] at found
    obtain ⟨inner, inside⟩ := exists_closesFirst found
    rw [inside.scanClose_eq, Nat.add_right_comm, afterClose] at found
    have after := le_of_scanClose found
    have low := inside.le
    obtain ⟨outer, more, rest⟩ := exists_blockCloses found
    exact ⟨outer, _, .option here option inside rest⟩
  · obtain ⟨depth, found⟩ : ∃ depth, scanClose lines names depth (index + 1) = some close := by
      cases opens : line.isOpening with
      | true => exact ⟨_, (scanClose_opening here opens).symm.trans found⟩
      | false => exact ⟨_, (scanClose_other here opens closesNot).symm.trans found⟩
    have later := le_of_scanClose found
    obtain ⟨outer, more, rest⟩ := exists_blockCloses found
    exact ⟨outer, _, .other here closesNot choices option rest⟩
termination_by close - index

end Counter

/-- Where the first label of a block is in order, the block is found by the scan behind it. -/
theorem exists_scanBlock_iff {lines : List Line} {declared : List String} {opened start : Nat}
    {first : Line} {guard : Guard} (here : lines[start]? = some first)
    (labels : first.guard declared = .ok (some guard)) (close : Nat)
    : (∃ block, scanBlock lines declared opened start = .ok block ∧ block.close = close)
      ↔ scanClose lines declared 0 (start + 1) = some close := by
  simp only [scanBlock, here, labels, scanClose]
  cases scanFrom declared 0 (start + 1) (lines.drop (start + 1)) <;> simp

-----------------------------------------------------------------------------------------
-- Main statement
-----------------------------------------------------------------------------------------

/-- From a first label that is in order, the scan finds the close that reading the block finds if
and only if the reading meets no stray. And whenever the scan finds a close, the reading finds one
that is not behind it.
-/
theorem scanBlock_agrees {lines : List Line} {declared : List String} {opened start : Nat}
    {first : Line} {guard : Guard} (here : lines[start]? = some first)
    (labels : first.guard declared = .ok (some guard))
    : (∀ close strays,
        BlockCloses lines (start + 1) close strays
        → ((∃ block, scanBlock lines declared opened start = .ok block ∧ block.close = close)
            ↔ strays = []))
      ∧ ∀ block,
          scanBlock lines declared opened start = .ok block
          → ∃ close strays, BlockCloses lines (start + 1) close strays ∧ close ≤ block.close := by
  constructor
  · intro close strays block
    rw [exists_scanBlock_iff here labels, block.scanClose_eq]
    cases strays with
    | nil => simp [afterClose]
    | cons stray others =>
        refine iff_of_false (fun found => ?_) (by simp)
        -- the counter is not back to zero, so the scan has gone on
        rw [List.length_cons, ← Nat.add_assoc, afterClose] at found
        have later := le_of_scanClose found
        omega
  · intro block found
    have scanned := (exists_scanBlock_iff here labels block.close).mp ⟨block, found, rfl⟩
    obtain ⟨close, strays, reading⟩ := exists_blockCloses scanned
    refine ⟨close, strays, reading, ?_⟩
    rw [reading.scanClose_eq] at scanned
    cases strays with
    | nil => exact Nat.le_of_eq (Option.some.inj scanned)
    | cons stray others =>
        rw [List.length_cons, ← Nat.add_assoc, afterClose] at scanned
        exact Nat.le_of_succ_le (le_of_scanClose scanned)

/-- A block with an option block and a choices block inside its only branch. -/
def nestedLines : List Line :=
  [⟨1, ["choices"], ""⟩, ⟨2, ["pick,1"], ""⟩, ⟨3, ["option"], "mood"⟩, ⟨4, ["pick,1"], "Fine"⟩,
    ⟨5, ["/"], ""⟩, ⟨6, ["choices"], ""⟩, ⟨7, ["pick,0"], ""⟩, ⟨8, ["//"], ""⟩, ⟨9, ["/"], ""⟩,
    ⟨10, ["/"], ""⟩]

/-- Reading the block with two inner blocks meets no stray, so the scan finds its close. -/
theorem nested_scan_agrees
    : decodeAll
          [(1, "<choices>"), (2, "<pick,1>"), (3, "<option>mood"), (4, "<pick,1>Fine"), (5, "</>"),
            (6, "<choices>"), (7, "<pick,0>"), (8, "<//>"), (9, "</>"), (10, "</>")]
        = .ok nestedLines
      ∧ BlockCloses nestedLines 2 9 []
      ∧ ∃ block, scanBlock nestedLines ["pick", "mood"] 0 1 = .ok block ∧ block.close = 9 := by
  have option : ClosesFirst nestedLines 3 4 :=
    (choicesFrom_eq_some_iff.mp (show choicesFrom 3 _ = some (["Fine"], 4) by decide)).1
  have inner : BlockCloses nestedLines 6 8 [] := by
    refine @BlockCloses.other _ 6 8 nestedLines[6] [] rfl rfl (by decide) (by decide) ?_
    refine @BlockCloses.other _ 7 8 nestedLines[7] [] rfl rfl (by decide) (by decide) ?_
    exact @BlockCloses.close _ 8 nestedLines[8] rfl rfl
  have reading : BlockCloses nestedLines 2 9 [] := by
    refine @BlockCloses.option _ 2 4 9 nestedLines[2] [] rfl rfl option ?_
    refine @BlockCloses.choices _ 5 8 9 nestedLines[5] [] [] rfl rfl inner ?_
    exact @BlockCloses.close _ 9 nestedLines[9] rfl rfl
  have labels : nestedLines[1].guard ["pick", "mood"] = .ok (some ⟨"pick", 1⟩) := by decide +kernel
  exact ⟨by decide +kernel, reading, ((scanBlock_agrees rfl labels).1 9 [] reading).mpr rfl⟩

/-- A block whose only branch holds a thought of somebody of the name `choices`. -/
def asideLines : List Line :=
  [⟨1, ["choices"], ""⟩, ⟨2, ["pick,1"], ""⟩, ⟨3, ["choices", "aside"], "Hm"⟩, ⟨4, ["/"], ""⟩]

/-- A thought opens no block, but where its speaker has the name of a block's tag the scan loses the
close that follows.
-/
theorem scanBlock_loses_close
    : decodeAll [(1, "<choices>"), (2, "<pick,1>"), (3, "<choices><aside>Hm"), (4, "</>")]
        = .ok asideLines
      ∧ asideLines[1].guard ["pick"] = .ok (some ⟨"pick", 1⟩)
      ∧ asideLines[2].statement ["pick"] = .ok (.think "choices" "Hm")
      ∧ BlockCloses asideLines 2 3 [asideLines[2]]
      ∧ scanBlock asideLines ["pick"] 0 1 = .error (.unterminatedChoices 1) := by
  refine ⟨by decide +kernel, by decide +kernel, by decide +kernel, ?_, by decide +kernel⟩
  refine @BlockCloses.other _ 2 3 asideLines[2] [] rfl rfl (by decide) (by decide) ?_
  exact @BlockCloses.close _ 3 asideLines[3] rfl rfl

end Line

end Dialogue
