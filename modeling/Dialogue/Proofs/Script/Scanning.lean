import Dialogue.Proofs.Script.Containment
import Dialogue.Proofs.Script.Wording

/-! Block scans over the lines of legible trees: what stands in a block is passed over as a whole,
and the labels that are found are those of its branches.
-/

namespace Dialogue

namespace Line

/-- A scan that is inside `depth` or more inner blocks passes over all these lines. -/
def Skips (names : List String) (depth : Nat) (segment : List Line) : Prop :=
  ∀ nested index rest,
    depth ≤ nested
    → scanFrom names nested index (segment ++ rest)
      = scanFrom names nested (index + segment.length) rest

variable {names : List String} {depth : Nat} {line : Line} {segment more : List Line}

theorem skips_nil : Skips names depth [] :=
  fun _ _ _ _ => rfl

theorem Skips.deeper (skips : Skips names 0 segment) : Skips names depth segment :=
  fun nested index rest _ => skips nested index rest (Nat.zero_le nested)

theorem Skips.append (left : Skips names depth segment) (right : Skips names depth more)
    : Skips names depth (segment ++ more) := by
  intro nested index rest deep
  rw [List.append_assoc, left _ _ _ deep, right _ _ _ deep, List.length_append, Nat.add_assoc]

theorem Passed.skips (passed : line.Passed names) : Skips names depth [line] :=
  fun _ _ _ _ => scanFrom_other passed.opensNot passed.closesNot fun _ => passed.labelsNot

/-- Inside an inner block a line is passed over that neither opens nor closes one, even if it is a
label.
-/
theorem skips_inner (opensNot : line.isOpening = false) (closesNot : line.isTerminator = false)
    : Skips names 1 [line] := by
  intro nested index rest deep
  apply scanFrom_other opensNot closesNot
  omega

/-- A block is passed over from the line that opens it to the one that closes it. -/
theorem skips_block {opening terminator : Line} (opens : opening.isOpening = true)
    (closes : terminator.isTerminator = true) (inner : Skips names 1 segment)
    : Skips names depth (opening :: (segment ++ [terminator])) := by
  intro nested index rest _
  rw [List.cons_append, scanFrom_opening opens, List.append_assoc,
    inner _ _ _ (Nat.le_add_left 1 nested), List.singleton_append, scanFrom_terminator_succ closes]
  simp [Nat.add_assoc, Nat.add_comm 1]

end Line

theorem Line.isTerminator_of_closing {line : Line} (holds : line.row = Row.closing)
    : line.isTerminator = true := by
  obtain ⟨number, tags, content⟩ := line
  obtain ⟨rfl, rfl⟩ := Row.mk.inj holds
  rfl

-----------------------------------------------------------------------------------------
-- Passing over trees
-----------------------------------------------------------------------------------------

theorem Offer.isOpening_row {offer : Offer} (legible : offer.Legible) {line : Line}
    (holds : line.row = offer.row)
    : line.isOpening = false ∧ line.isTerminator = false := by
  obtain ⟨number, tags, content⟩ := line
  obtain ⟨rfl, rfl⟩ := Row.mk.inj holds
  simp [Line.isOpening, Line.isTerminator, Line.first?, legible.opensNot, legible.closesNot]

/-- Inside an option block its choices are passed over, by induction on their list. -/
theorem Offer.skips {names : List String} {offers : List Offer}
    (legible : ∀ offer ∈ offers, offer.Legible) {segment : List Line}
    (holds : segment.map Line.row = offers.map Offer.row)
    : Line.Skips names 1 segment := by
  induction offers generalizing segment with
  | nil =>
      obtain rfl := List.map_eq_nil_iff.mp holds
      exact Line.skips_nil
  | cons offer rest ih =>
      obtain ⟨line, others, rfl, lineHolds, othersHold⟩ := List.map_eq_cons_iff.mp holds
      obtain ⟨opensNot, closesNot⟩ :=
        Offer.isOpening_row (legible offer List.mem_cons_self) lineHolds
      have later :=
        ih (fun other member => legible other (List.mem_cons_of_mem _ member)) othersHold
      exact (Line.skips_inner opensNot closesNot).append later

/-- The lines of an option are its first row, its choices and a closing tag. -/
theorem Remark.lines_of_option {form : Form} {name : String} {first : Offer} {others : List Offer}
    {segment : List Line}
    (holds : segment.map Line.row = (Remark.option form name first others).rows)
    : ∃ opening offers terminator,
        segment = opening :: (offers ++ [terminator])
        ∧ opening.row = (Remark.option form name first others).header
        ∧ offers.map Line.row = (first :: others).map Offer.row
        ∧ terminator.isTerminator = true := by
  obtain ⟨opening, inner, rfl, opens, innerHolds⟩ := List.map_eq_cons_iff.mp holds
  obtain ⟨offers, closing, rfl, offersHold, closingHolds⟩ := List.map_eq_append_iff.mp innerHolds
  obtain ⟨terminator, rfl, closes⟩ := List.map_eq_singleton_iff.mp closingHolds
  exact ⟨opening, offers, terminator, rfl, opens, offersHold, Line.isTerminator_of_closing closes⟩

/-- The lines of a block are its opening tag, its branches, a closing tag and what follows. -/
theorem Passage.lines_of_choices {forks : Forks} {rest : Passage} {segment : List Line}
    (holds : segment.map Line.row = (Passage.choices forks rest).rows)
    : ∃ opening branches terminator later,
        segment = opening :: (branches ++ terminator :: later)
        ∧ opening.row = ⟨["choices"], ""⟩
        ∧ branches.map Line.row = forks.rows
        ∧ terminator.isTerminator = true
        ∧ later.map Line.row = rest.rows := by
  obtain ⟨opening, inner, rfl, opens, innerHolds⟩ := List.map_eq_cons_iff.mp holds
  obtain ⟨branches, closing, rfl, branchesHold, closingHolds⟩ :=
    List.map_eq_append_iff.mp innerHolds
  obtain ⟨terminator, later, rfl, closes, laterHolds⟩ := List.map_eq_cons_iff.mp closingHolds
  exact ⟨opening, branches, terminator, later, rfl, opens, branchesHold,
    Line.isTerminator_of_closing closes, laterHolds⟩

/-- A line opens a block if it holds the first row of an option, whichever form that is written in.
-/
theorem Remark.isOpening_header {form : Form} {name : String} {first : Offer} {others : List Offer}
    {line : Line} (holds : line.row = (Remark.option form name first others).header)
    : line.isOpening = true := by
  obtain ⟨number, tags, content⟩ := line
  cases form <;> obtain ⟨rfl, rfl⟩ := Row.mk.inj holds <;> rfl

/-- A remark is passed over, by cases on whether it is an option. -/
theorem Remark.skips {names : List String} {remark : Remark} (legible : remark.Legible names)
    {segment : List Line} (holds : segment.map Line.row = remark.rows)
    : Line.Skips names 0 segment := by
  cases remark with
  | option form name first others =>
      obtain ⟨opening, offers, terminator, rfl, opens, offersHold, closes⟩ :=
        Remark.lines_of_option holds
      exact Line.skips_block (Remark.isOpening_header opens) closes
        (Offer.skips legible.2 offersHold)
  | scene _ | say _ _ | think _ _ _ =>
      obtain ⟨line, rfl, lineHolds⟩ := List.map_eq_singleton_iff.mp holds
      exact (Remark.passed_header legible rfl lineHolds).skips

/-- What closes a scope is passed over, by cases on it. -/
theorem Closing.skips {names : List String} {closing : Closing} {segment : List Line}
    (holds : segment.map Line.row = closing.rows)
    : Line.Skips names 0 segment := by
  cases closing with
  | runsOut =>
      obtain rfl := List.map_eq_nil_iff.mp holds
      exact Line.skips_nil
  | ended =>
      obtain ⟨line, rfl, lineHolds⟩ := List.map_eq_singleton_iff.mp holds
      have means : line.Means names .ending :=
        Line.means_single (by decide) lineHolds fun _ => rfl
      obtain ⟨number, tags, content⟩ := line
      obtain ⟨rfl, rfl⟩ := Row.mk.inj lineHolds
      exact Line.Passed.skips ⟨rfl, rfl, means.branch?⟩
  | dead =>
      obtain ⟨line, rfl, lineHolds⟩ := List.map_eq_singleton_iff.mp holds
      have means : line.Means names .dead :=
        Line.means_single (by decide) lineHolds fun _ => rfl
      obtain ⟨number, tags, content⟩ := line
      obtain ⟨rfl, rfl⟩ := Row.mk.inj lineHolds
      exact Line.Passed.skips ⟨rfl, rfl, means.branch?⟩

mutual

/-- A legible tree is passed over, by induction on the tree. -/
theorem Passage.skips {names : List String} (nameable : ∀ name ∈ names, LegibleName name)
    (passage : Passage) (legible : passage.LegibleIn names) {segment : List Line}
    (holds : segment.map Line.row = passage.rows)
    : Line.Skips names 0 segment := by
  cases passage with
  | remark remark rest =>
      obtain ⟨first, others, rfl, firstHolds, othersHold⟩ := List.map_eq_append_iff.mp holds
      exact (Remark.skips legible.1 firstHolds).append (rest.skips nameable legible.2 othersHold)
  | choices forks rest =>
      obtain ⟨opening, branches, closing, others, rfl, opens, branchesHold, closes, othersHold⟩ :=
        Passage.lines_of_choices holds
      have isOpening : opening.isOpening = true := by
        obtain ⟨number, tags, content⟩ := opening
        obtain ⟨rfl, rfl⟩ := Row.mk.inj opens
        rfl
      have block : Line.Skips names 0 (opening :: (branches ++ [closing])) :=
        Line.skips_block isOpening closes (forks.skips nameable legible.1 branchesHold)
      simpa using block.append (rest.skips nameable legible.2 othersHold)
  | close closing => exact Closing.skips holds

/-- Inside an inner block legible branches are passed over, by induction on the branches. -/
theorem Forks.skips {names : List String} (nameable : ∀ name ∈ names, LegibleName name)
    (forks : Forks) (legible : forks.LegibleIn names) {segment : List Line}
    (holds : segment.map Line.row = forks.rows)
    : Line.Skips names 1 segment := by
  cases forks with
  | last cue body =>
      obtain ⟨line, others, rfl, lineHolds, othersHold⟩ := List.map_eq_cons_iff.mp holds
      obtain ⟨opensNot, closesNot⟩ := Cue.isOpening_row nameable legible.1 lineHolds
      have inBody := body.skips nameable legible.2 othersHold
      exact (Line.skips_inner opensNot closesNot).append inBody.deeper
  | cons cue body rest =>
      obtain ⟨line, others, rfl, lineHolds, othersHold⟩ := List.map_eq_cons_iff.mp holds
      obtain ⟨inner, later, rfl, innerHolds, laterHold⟩ := List.map_eq_append_iff.mp othersHold
      obtain ⟨opensNot, closesNot⟩ := Cue.isOpening_row nameable legible.1 lineHolds
      have inBody := body.skips nameable legible.2.1 innerHolds
      have after := rest.skips nameable legible.2.2 laterHold
      exact (Line.skips_inner opensNot closesNot).append (inBody.deeper.append after)

end

-----------------------------------------------------------------------------------------
-- Finding branches
-----------------------------------------------------------------------------------------

namespace Forks

/-- The labels of branches whose first label stands at an index. -/
def labels (index : Nat) : Forks → List Label
  | .last cue _ => [⟨index, cue.guard⟩]
  | .cons cue body rest => ⟨index, cue.guard⟩ :: rest.labels (index + 1 + body.rows.length)

theorem head?_labels (forks : Forks) (index : Nat)
    : (forks.labels index).head?.map Label.index = some index := by
  cases forks <;> rfl

/-- A scan that begins at the first label finds all labels and the line that closes the block, by
induction on the branches.
-/
theorem scanFrom {names : List String} (nameable : ∀ name ∈ names, LegibleName name)
    {forks : Forks} (legible : forks.LegibleIn names) {segment rest : List Line} {terminator : Line}
    (holds : segment.map Line.row = forks.rows) (closes : terminator.isTerminator = true)
    {index : Nat}
    : Line.scanFrom names 0 index (segment ++ terminator :: rest)
      = some ⟨forks.labels index, index + segment.length⟩ := by
  cases forks with
  | last cue body =>
      obtain ⟨line, inner, rfl, lineHolds, innerHolds⟩ := List.map_eq_cons_iff.mp holds
      obtain ⟨opensNot, closesNot⟩ := Cue.isOpening_row nameable legible.1 lineHolds
      have labelled := (Cue.guard_row nameable legible.1 lineHolds).2
      have skips := body.skips nameable legible.2 innerHolds
      rw [List.cons_append, Line.scanFrom_label opensNot closesNot labelled,
        skips _ _ _ (Nat.le_refl 0), Line.scanFrom_terminator_zero closes]
      simp [labels, Nat.add_assoc, Nat.add_comm 1]
  | cons cue body others =>
      obtain ⟨line, later, rfl, lineHolds, laterHolds⟩ := List.map_eq_cons_iff.mp holds
      obtain ⟨inner, after, rfl, innerHolds, afterHolds⟩ := List.map_eq_append_iff.mp laterHolds
      obtain ⟨opensNot, closesNot⟩ := Cue.isOpening_row nameable legible.1 lineHolds
      have labelled := (Cue.guard_row nameable legible.1 lineHolds).2
      have skips := body.skips nameable legible.2.1 innerHolds
      have size : inner.length = body.rows.length := by rw [← innerHolds, List.length_map]
      rw [List.cons_append, Line.scanFrom_label opensNot closesNot labelled, List.append_assoc,
        skips _ _ _ (Nat.le_refl 0), scanFrom nameable legible.2.2 afterHolds closes]
      simp [labels, size, Nat.add_assoc, Nat.add_comm 1]

/-- The block of legible branches is found from its first label to the line that closes it. -/
theorem scanBlock {names : List String} (nameable : ∀ name ∈ names, LegibleName name)
    {forks : Forks} (legible : forks.LegibleIn names) {lines segment rest : List Line}
    {terminator : Line} {opened start : Nat}
    (here : lines.drop start = segment ++ terminator :: rest)
    (holds : segment.map Line.row = forks.rows) (closes : terminator.isTerminator = true)
    : Line.scanBlock lines names opened start
      = .ok ⟨forks.labels start, start + segment.length⟩ := by
  obtain ⟨line, later, cue, rfl, lineHolds, cueLegible⟩
      : ∃ line later, ∃ cue : Cue,
          segment = line :: later ∧ line.row = cue.row ∧ cue.Legible names := by
    cases forks with
    | last cue body =>
        obtain ⟨line, later, same, lineHolds, -⟩ := List.map_eq_cons_iff.mp holds
        exact ⟨line, later, cue, same, lineHolds, legible.1⟩
    | cons cue body others =>
        obtain ⟨line, later, same, lineHolds, -⟩ := List.map_eq_cons_iff.mp holds
        exact ⟨line, later, cue, same, lineHolds, legible.1⟩
  have scanned
      : Line.scanFrom names 0 start (line :: later ++ terminator :: rest)
        = some ⟨forks.labels start, start + (line :: later).length⟩ :=
    scanFrom nameable legible holds closes
  obtain ⟨opensNot, closesNot⟩ := Cue.isOpening_row nameable cueLegible lineHolds
  obtain ⟨guarded, labelled⟩ := Cue.guard_row nameable cueLegible lineHolds
  rw [List.cons_append] at here
  obtain ⟨first, dropped⟩ := Line.drop_eq_cons here
  rw [List.cons_append, Line.scanFrom_label opensNot closesNot labelled] at scanned
  obtain ⟨block, found, same⟩ := Option.map_eq_some_iff.mp scanned
  rw [← dropped] at found
  simp only [Line.scanBlock, first, guarded, found]
  exact congrArg _ same

end Forks

end Dialogue
