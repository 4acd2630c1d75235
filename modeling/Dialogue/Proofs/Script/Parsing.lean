import Dialogue.Proofs.Script.Scanning
import Dialogue.Proofs.Script.Writing

/-! The lines of a legible tree are read as the outline of the tree. -/

namespace Dialogue

-----------------------------------------------------------------------------------------
-- Options
-----------------------------------------------------------------------------------------

namespace Line

/-- The options that these lines open have these names, in order. -/
def Opens (segment : List Line) (names : List String) : Prop :=
  (segment.filter fun line => line.first? = some "option").mapM plainStatement
    = .ok (names.map Statement.option)

theorem opens_nil : Opens [] [] :=
  rfl

theorem Opens.append {segment more : List Line} {names others : List String}
    (left : Opens segment names) (right : Opens more others)
    : Opens (segment ++ more) (names ++ others) := by
  unfold Opens at *
  rw [List.filter_append, List.mapM_append, left, right, List.map_append]
  rfl

theorem opens_of_not_isOpening {line : Line} (opensNot : line.isOpening = false)
    : Opens [line] [] := by
  have different : line.first? ≠ some "option" := by
    intro same
    simp [isOpening, same] at opensNot
  simp [Opens, different]
  rfl

theorem opens_option {line : Line} {name : String} (first : line.first? = some "option")
    (means : line.plainStatement = .ok (.option name))
    : Opens [line] [name] := by
  simp [Opens, first, means]

theorem Opens.optionNames {lines : List Line} {names : List String} (opens : Opens lines names)
    : Line.optionNames lines = .ok names := by
  rw [Line.optionNames, opens]
  show Except.ok ((names.map Statement.option).filterMap _) = Except.ok names
  rw [List.filterMap_map]
  exact congrArg _ List.filterMap_some

end Line

/-- The choices of an option open no option, by induction on their list. -/
theorem Offer.opens {offers : List Offer} (legible : ∀ offer ∈ offers, offer.Legible)
    {segment : List Line} (holds : segment.map Line.row = offers.map Offer.row)
    : Line.Opens segment [] := by
  induction offers generalizing segment with
  | nil =>
      obtain rfl := List.map_eq_nil_iff.mp holds
      exact Line.opens_nil
  | cons offer rest ih =>
      obtain ⟨line, others, rfl, lineHolds, othersHold⟩ := List.map_eq_cons_iff.mp holds
      have opensNot := (Offer.isOpening_row (legible offer List.mem_cons_self) lineHolds).1
      have later :=
        ih (fun other member => legible other (List.mem_cons_of_mem _ member)) othersHold
      exact (Line.opens_of_not_isOpening opensNot).append later

/-- A remark opens the option that it presents, if any. -/
theorem Remark.opens {names : List String} {remark : Remark} (legible : remark.Legible names)
    {segment : List Line} (holds : segment.map Line.row = remark.rows)
    : Line.Opens segment remark.names := by
  cases remark with
  | option form name first others =>
      obtain ⟨opening, offers, terminator, rfl, opens, offersHold, closes⟩ :=
        Remark.lines_of_option holds
      have means := (Remark.means_header legible opens).plain
      have isOption : opening.first? = some "option" := by
        obtain ⟨number, tags, content⟩ := opening
        cases form <;> obtain ⟨rfl, rfl⟩ := Row.mk.inj opens <;> rfl
      have closed := Line.opens_of_not_isOpening (Line.not_isOpening_of_isTerminator closes)
      have inside := Offer.opens legible.2 offersHold
      exact (Line.opens_option isOption means).append (inside.append closed)
  | scene _ | say _ _ | think _ _ _ =>
      obtain ⟨line, rfl, lineHolds⟩ := List.map_eq_singleton_iff.mp holds
      exact Line.opens_of_not_isOpening (Remark.passed_header legible rfl lineHolds).opensNot

/-- What closes a scope opens no option. -/
theorem Closing.opens {closing : Closing} {segment : List Line}
    (holds : segment.map Line.row = closing.rows)
    : Line.Opens segment [] := by
  cases closing with
  | runsOut =>
      obtain rfl := List.map_eq_nil_iff.mp holds
      exact Line.opens_nil
  | ended | dead =>
      obtain ⟨line, rfl, lineHolds⟩ := List.map_eq_singleton_iff.mp holds
      obtain ⟨number, tags, content⟩ := line
      obtain ⟨rfl, rfl⟩ := Row.mk.inj lineHolds
      exact Line.opens_of_not_isOpening rfl

mutual

/-- A legible tree opens its options, by induction on the tree. -/
theorem Passage.opens {names : List String} (nameable : ∀ name ∈ names, LegibleName name)
    (passage : Passage) (legible : passage.LegibleIn names) {segment : List Line}
    (holds : segment.map Line.row = passage.rows)
    : Line.Opens segment passage.names := by
  cases passage with
  | remark remark rest =>
      obtain ⟨first, others, rfl, firstHolds, othersHold⟩ := List.map_eq_append_iff.mp holds
      exact (Remark.opens legible.1 firstHolds).append (rest.opens nameable legible.2 othersHold)
  | choices forks rest =>
      obtain ⟨opening, branches, closing, others, rfl, opens, branchesHold, closes, othersHold⟩ :=
        Passage.lines_of_choices holds
      have start : Line.Opens [opening] [] := by
        obtain ⟨number, tags, content⟩ := opening
        obtain ⟨rfl, rfl⟩ := Row.mk.inj opens
        rfl
      have inBranches := forks.opens nameable legible.1 branchesHold
      have closed := Line.opens_of_not_isOpening (Line.not_isOpening_of_isTerminator closes)
      have after := rest.opens nameable legible.2 othersHold
      simpa [Passage.names] using start.append (inBranches.append (closed.append after))
  | close closing => exact Closing.opens holds

/-- Legible branches open their options, by induction on the branches. -/
theorem Forks.opens {names : List String} (nameable : ∀ name ∈ names, LegibleName name)
    (forks : Forks) (legible : forks.LegibleIn names) {segment : List Line}
    (holds : segment.map Line.row = forks.rows)
    : Line.Opens segment forks.names := by
  cases forks with
  | last cue body =>
      obtain ⟨line, others, rfl, lineHolds, othersHold⟩ := List.map_eq_cons_iff.mp holds
      have opensNot := (Cue.isOpening_row nameable legible.1 lineHolds).1
      exact (Line.opens_of_not_isOpening opensNot).append (body.opens nameable legible.2 othersHold)
  | cons cue body rest =>
      obtain ⟨line, others, rfl, lineHolds, othersHold⟩ := List.map_eq_cons_iff.mp holds
      obtain ⟨inner, later, rfl, innerHolds, laterHold⟩ := List.map_eq_append_iff.mp othersHold
      have opensNot := (Cue.isOpening_row nameable legible.1 lineHolds).1
      have inBody := body.opens nameable legible.2.1 innerHolds
      have after := rest.opens nameable legible.2.2 laterHold
      exact (Line.opens_of_not_isOpening opensNot).append (inBody.append after)

end

/-- The choices of an option are found up to the line that closes it, by induction on their list. -/
theorem Offer.choicesFrom {offers : List Offer} (legible : ∀ offer ∈ offers, offer.Legible)
    {segment rest : List Line} {terminator : Line}
    (holds : segment.map Line.row = offers.map Offer.row)
    (closes : terminator.isTerminator = true) {index : Nat}
    : Line.choicesFrom index (segment ++ terminator :: rest)
      = some (offers.map Offer.shown, index + segment.length) := by
  induction offers generalizing segment index with
  | nil =>
      obtain rfl := List.map_eq_nil_iff.mp holds
      rw [List.nil_append, Line.choicesFrom, if_pos closes]
      rfl
  | cons offer others ih =>
      obtain ⟨line, later, rfl, lineHolds, laterHolds⟩ := List.map_eq_cons_iff.mp holds
      have closesNot := (Offer.isOpening_row (legible offer List.mem_cons_self) lineHolds).2
      have found : Line.choicesFrom (index + 1) (later ++ terminator :: rest)
          = some (others.map Offer.shown, index + 1 + later.length) :=
        ih (fun other member => legible other (List.mem_cons_of_mem _ member)) laterHolds
      have shown : line.choice = offer.shown := by
        obtain ⟨number, tags, content⟩ := line
        obtain ⟨rfl, rfl⟩ := Row.mk.inj lineHolds
        rfl
      rw [List.cons_append, Line.choicesFrom, if_neg (Bool.eq_false_iff.mp closesNot), found]
      simp [shown, Nat.add_assoc, Nat.add_comm 1]

/-- A legible option is read with its choices up to the line that closes it. -/
theorem Offer.readOption {first : Offer} {others : List Offer}
    (legible : ∀ offer ∈ first :: others, offer.Legible) {lines segment rest : List Line}
    {terminator : Line} {opened : Nat} {name : String}
    (here : lines.drop (opened + 1) = segment ++ terminator :: rest)
    (holds : segment.map Line.row = (first :: others).map Offer.row)
    (closes : terminator.isTerminator = true)
    : Line.readOption lines opened name
      = .ok ((first :: others).map Offer.shown, opened + 1 + segment.length) := by
  rw [Line.readOption, here, Offer.choicesFrom legible holds closes]
  rfl

-----------------------------------------------------------------------------------------
-- Outlines
-----------------------------------------------------------------------------------------

mutual

/-- The outline of a tree, whatever the line numbers. Where nothing closes the tree, its outline may
be left open or be waiting to be filled.
-/
inductive Passage.Outlined : Passage → Scope → Prop where
  | remark {remark rest line scope} (outlined : Passage.Outlined rest scope)
    : Passage.Outlined (.remark remark rest) (.beat remark.beat line scope)
  | choices {forks rest line branches scope} (inner : Forks.Outlined forks branches)
    (outlined : Passage.Outlined rest scope)
    : Passage.Outlined (.choices forks rest) (.block line branches scope)
  | ended {line} : Passage.Outlined (.close .ended) (.ended line)
  | dead {line} : Passage.Outlined (.close .dead) (.dead line)
  | runsOut {line} : Passage.Outlined (.close .runsOut) (.runsOut line)
  | unfilled : Passage.Outlined (.close .runsOut) .unfilled

/-- The outline of branches, whatever the line numbers. -/
inductive Forks.Outlined : Forks → Branches → Prop where
  | last {cue body scope} (outlined : Passage.Outlined body scope)
    : Forks.Outlined (.last cue body) (.cons cue.guard scope .nil)
  | cons {cue body rest scope branches} (outlined : Passage.Outlined body scope)
    (others : Forks.Outlined rest branches)
    : Forks.Outlined (.cons cue body rest) (.cons cue.guard scope branches)

end

/-- Settling an outline changes at most how it is left open, by induction on the tree. -/
theorem Passage.Outlined.settle {passage : Passage} {scope : Scope}
    (outlined : passage.Outlined scope) (waiting : Bool)
    : passage.Outlined (scope.settle waiting) := by
  cases outlined with
  | remark rest => exact .remark (rest.settle false)
  | choices inner rest => exact .choices inner (rest.settle _)
  | ended => exact .ended
  | dead => exact .dead
  | unfilled => exact .unfilled
  | runsOut =>
      cases waiting with
      | true => exact .runsOut
      | false => exact .unfilled

mutual

/-- The outline of a tree whose first row is on the line at an index, where the lines have these
numbers.
-/
def Passage.outline (number : Nat → Nat) (index : Nat) : Passage → Scope
  | .remark remark rest =>
      .beat remark.beat (number index) (rest.outline number (index + remark.rows.length))
  | .choices forks rest =>
      .block (number index) (forks.outline number (index + 1))
        (rest.outline number (index + 1 + forks.rows.length + 1))
  | .close .ended => .ended (number index)
  | .close .dead => .dead (number index)
  | .close .runsOut => .runsOut (number (index - 1))

/-- The outline of branches whose first row is on the line at an index. -/
def Forks.outline (number : Nat → Nat) (index : Nat) : Forks → Branches
  | .last cue body => .cons cue.guard (body.outline number (index + 1)) .nil
  | .cons cue body rest =>
      .cons cue.guard (body.outline number (index + 1))
        (rest.outline number (index + 1 + body.rows.length))

end

mutual

theorem Passage.outlined (passage : Passage) (number : Nat → Nat) (index : Nat)
    : passage.Outlined (passage.outline number index) := by
  cases passage with
  | remark remark rest => exact .remark (rest.outlined number _)
  | choices forks rest => exact .choices (forks.outlined number _) (rest.outlined number _)
  | close closing =>
      cases closing with
      | ended => exact .ended
      | dead => exact .dead
      | runsOut => exact .runsOut

theorem Forks.outlined (forks : Forks) (number : Nat → Nat) (index : Nat)
    : forks.Outlined (forks.outline number index) := by
  cases forks with
  | last cue body => exact .last (body.outlined number _)
  | cons cue body rest => exact .cons (body.outlined number _) (rest.outlined number _)

end

-----------------------------------------------------------------------------------------
-- Reading trees
-----------------------------------------------------------------------------------------

theorem Line.drop_eq_append {lines segment rest : List Line} {index : Nat}
    (here : lines.drop index = segment ++ rest)
    : lines.drop (index + segment.length) = rest := by
  rw [← List.drop_drop, here, List.drop_left]

theorem Line.before?_of_drop {lines rest : List Line} {line : Line} {index stop : Nat}
    (here : lines.drop index = line :: rest) (before : index < stop)
    : before? lines stop index = some line := by
  rw [before?, if_pos before, (drop_eq_cons here).1]

theorem Line.numberAt_of_drop {lines rest : List Line} {line : Line} {index : Nat}
    (here : lines.drop index = line :: rest)
    : numberAt lines index = line.number := by
  rw [numberAt, (drop_eq_cons here).1]
  rfl

/-- The rows of a remark are read as its beat, in front of what is read behind them. -/
theorem Remark.reads {names : List String} {remark : Remark} (legible : remark.Legible names)
    {lines segment rest : List Line} {cursor stop : Nat} {known : List String} {reading : Reading}
    (here : lines.drop cursor = segment ++ rest) (holds : segment.map Line.row = remark.rows)
    (subset : known ⊆ names) (before : cursor + segment.length ≤ stop)
    (after : Line.Reads lines names stop (cursor + segment.length) (remark.names ++ known) reading)
    : Line.Reads lines names stop cursor known
        (reading.afterBeat remark.beat (Line.numberAt lines cursor)) := by
  cases remark with
  | option form name first others =>
      obtain ⟨opening, offers, terminator, rfl, opens, offersHold, closes⟩ :=
        Remark.lines_of_option holds
      have means := (Remark.means_header legible opens).statement subset
      rw [List.cons_append, List.append_assoc, List.singleton_append] at here
      have found : Line.readOption lines cursor name
          = .ok ((first :: others).map Offer.shown, cursor + 1 + offers.length) :=
        Offer.readOption legible.2 (Line.drop_eq_cons here).2 offersHold closes
      have size : (opening :: (offers ++ [terminator])).length = 1 + offers.length + 1 := by
        rw [List.length_cons, List.length_append, List.length_singleton]
        omega
      rw [size, ← Nat.add_assoc, ← Nat.add_assoc] at before after
      rw [Line.numberAt_of_drop here]
      exact .option (Line.before?_of_drop here (by omega)) means found after
  | scene _ | say _ _ | think _ _ _ =>
      obtain ⟨line, rfl, lineHolds⟩ := List.map_eq_singleton_iff.mp holds
      have means := (Remark.means_header legible lineHolds).statement subset
      rw [Line.numberAt_of_drop here]
      exact .beat (Line.before?_of_drop here before) means rfl after

/-- The rows that close a scope are read as what closes it, by cases on it. -/
theorem Closing.reads {names : List String} {closing : Closing} {lines segment rest : List Line}
    {cursor : Nat} {known : List String} (here : lines.drop cursor = segment ++ rest)
    (holds : segment.map Line.row = closing.rows) (subset : known ⊆ names)
    : ∃ reading,
        Line.Reads lines names (cursor + segment.length) cursor known reading
        ∧ reading.scope = (Passage.close closing).outline (Line.numberAt lines) cursor
        ∧ reading.known = known := by
  cases closing with
  | runsOut =>
      obtain rfl := List.map_eq_nil_iff.mp holds
      have noLine : Line.before? lines cursor cursor = none := if_neg (Nat.lt_irrefl cursor)
      exact ⟨_, .runsOut noLine, rfl, rfl⟩
  | ended =>
      obtain ⟨line, rfl, lineHolds⟩ := List.map_eq_singleton_iff.mp holds
      have means : line.Means names .ending := Line.means_single (by decide) lineHolds fun _ => rfl
      have found := Line.before?_of_drop here (Nat.lt_succ_self cursor)
      refine ⟨_, .ended found (means.statement subset), ?_, rfl⟩
      rw [Passage.outline, Line.numberAt_of_drop here]
  | dead =>
      obtain ⟨line, rfl, lineHolds⟩ := List.map_eq_singleton_iff.mp holds
      have means : line.Means names .dead := Line.means_single (by decide) lineHolds fun _ => rfl
      have found := Line.before?_of_drop here (Nat.lt_succ_self cursor)
      refine ⟨_, .dead found (means.statement subset), ?_, rfl⟩
      rw [Passage.outline, Line.numberAt_of_drop here]

mutual

/-- The lines of a legible tree are read as the outline of the tree, and no option becomes known
that is not one of its own. By induction on the tree.
-/
theorem Passage.reads {names : List String} (nameable : ∀ name ∈ names, LegibleName name)
    (passage : Passage) (legible : passage.LegibleIn names) (owned : passage.names ⊆ names)
    {lines segment rest : List Line} {cursor : Nat} {known : List String}
    (here : lines.drop cursor = segment ++ rest) (holds : segment.map Line.row = passage.rows)
    (subset : known ⊆ names)
    : ∃ reading,
        Line.Reads lines names (cursor + segment.length) cursor known reading
        ∧ reading.scope = passage.outline (Line.numberAt lines) cursor
        ∧ reading.known ⊆ names := by
  cases passage with
  | remark remark later =>
      obtain ⟨first, others, rfl, firstHolds, othersHold⟩ := List.map_eq_append_iff.mp holds
      rw [List.append_assoc] at here
      have size : first.length = remark.rows.length := by rw [← firstHolds, List.length_map]
      obtain ⟨reading, reads, outlined, subsetAfter⟩ :
          ∃ reading,
            Line.Reads lines names (cursor + first.length + others.length) (cursor + first.length)
              (remark.names ++ known) reading
            ∧ reading.scope = later.outline (Line.numberAt lines) (cursor + first.length)
            ∧ reading.known ⊆ names :=
        later.reads nameable legible.2 (fun _ member => owned (List.mem_append_right _ member))
          (Line.drop_eq_append here) othersHold
          (List.append_subset.mpr ⟨fun _ member => owned (List.mem_append_left _ member), subset⟩)
      have whole := Remark.reads legible.1 here firstHolds subset (Nat.le_add_right _ _) reads
      rw [List.length_append, ← Nat.add_assoc]
      refine ⟨_, whole, ?_, subsetAfter⟩
      rw [Reading.scope_afterBeat, outlined, size, Passage.outline]
  | choices forks later =>
      obtain ⟨opening, branches, closing, others, rfl, opens, branchesHold, closes, othersHold⟩ :=
        Passage.lines_of_choices holds
      rw [List.cons_append, List.append_assoc, List.cons_append] at here
      obtain ⟨-, inside⟩ := Line.drop_eq_cons here
      have means : opening.Means names .choices :=
        Line.means_single (by decide) opens fun _ => rfl
      have found : Line.scanBlock lines names cursor (cursor + 1)
          = .ok ⟨forks.labels (cursor + 1), cursor + 1 + branches.length⟩ :=
        Forks.scanBlock nameable legible.1 inside branchesHold closes
      obtain ⟨bodies, knownAfter, readsBodies, inner, subsetInside⟩ :=
        forks.reads nameable legible.1 (fun _ member => owned (List.mem_append_left _ member))
          inside branchesHold subset
      obtain ⟨-, behind⟩ := Line.drop_eq_cons (Line.drop_eq_append inside)
      obtain ⟨reading, reads, outlined, subsetAfter⟩ :=
        later.reads nameable legible.2 (fun _ member => owned (List.mem_append_right _ member))
          behind othersHold subsetInside
      have stop : cursor + (opening :: (branches ++ closing :: others)).length
          = cursor + 1 + branches.length + 1 + others.length := by
        simp only [List.length_cons, List.length_append]
        omega
      have size : branches.length = forks.rows.length := by rw [← branchesHold, List.length_map]
      rw [stop]
      refine ⟨_, .choices (Line.before?_of_drop here (by omega)) (means.statement subset) found
        readsBodies reads, ?_, subsetAfter⟩
      rw [Reading.scope_afterBlock, inner, outlined, size, Passage.outline,
        Line.numberAt_of_drop here]
  | close closing =>
      obtain ⟨reading, reads, outlined, same⟩ := Closing.reads here holds subset
      exact ⟨reading, reads, outlined, same ▸ subset⟩

/-- The lines of legible branches are read as the outline of the branches. By induction on them. -/
theorem Forks.reads {names : List String} (nameable : ∀ name ∈ names, LegibleName name)
    (forks : Forks) (legible : forks.LegibleIn names) (owned : forks.names ⊆ names)
    {lines segment rest : List Line} {start : Nat} {known : List String}
    (here : lines.drop start = segment ++ rest) (holds : segment.map Line.row = forks.rows)
    (subset : known ⊆ names)
    : ∃ branches later,
        Line.ReadsBranches lines names
          (Block.branchesUpTo (start + segment.length) (forks.labels start)) known branches later
        ∧ branches = forks.outline (Line.numberAt lines) start
        ∧ later ⊆ names := by
  cases forks with
  | last cue body =>
      obtain ⟨label, inner, rfl, -, innerHolds⟩ := List.map_eq_cons_iff.mp holds
      rw [List.cons_append] at here
      obtain ⟨reading, reads, outlined, subsetAfter⟩ :=
        body.reads nameable legible.2 owned (Line.drop_eq_cons here).2 innerHolds subset
      have stop : start + (label :: inner).length = start + 1 + inner.length := by
        rw [List.length_cons]
        omega
      rw [stop]
      refine ⟨_, _, .cons reads .nil, ?_, subsetAfter⟩
      rw [outlined, Forks.outline]
  | cons cue body others =>
      obtain ⟨label, later, rfl, -, laterHolds⟩ := List.map_eq_cons_iff.mp holds
      obtain ⟨inner, after, rfl, innerHolds, afterHolds⟩ := List.map_eq_append_iff.mp laterHolds
      rw [List.cons_append, List.append_assoc] at here
      have inside := (Line.drop_eq_cons here).2
      obtain ⟨reading, reads, outlined, subsetAfter⟩ :=
        body.reads nameable legible.2.1 (fun _ member => owned (List.mem_append_left _ member))
          inside innerHolds subset
      obtain ⟨branches, known, readsOthers, outlinedOthers, subsetLast⟩ :=
        others.reads nameable legible.2.2 (fun _ member => owned (List.mem_append_right _ member))
          (Line.drop_eq_append inside) afterHolds subsetAfter
      have size : inner.length = body.rows.length := by rw [← innerHolds, List.length_map]
      have stop : start + (label :: (inner ++ after)).length
          = start + 1 + inner.length + after.length := by
        simp only [List.length_cons, List.length_append]
        omega
      rw [stop, Forks.labels, Block.branchesUpTo, Forks.head?_labels, Option.getD_some, ← size]
      refine ⟨_, _, .cons reads readsOthers, ?_, subsetLast⟩
      rw [outlined, outlinedOthers, Forks.outline, size]

end

-----------------------------------------------------------------------------------------
-- Whole trees
-----------------------------------------------------------------------------------------

mutual

/-- In a legible tree all options have legible names, by induction on the tree. -/
theorem Passage.legibleName {names : List String} (passage : Passage)
    (legible : passage.LegibleIn names)
    : ∀ name ∈ passage.names, LegibleName name := by
  intro name member
  cases passage with
  | remark remark rest =>
      rcases List.mem_append.mp member with here | later
      · cases remark with
        | option form presented first others =>
            obtain rfl := List.mem_singleton.mp here
            exact legible.1.1
        | scene _ | say _ _ | think _ _ _ => cases here
      · exact rest.legibleName legible.2 name later
  | choices forks rest =>
      rcases List.mem_append.mp member with inside | later
      · exact forks.legibleName legible.1 name inside
      · exact rest.legibleName legible.2 name later
  | close closing => cases member

theorem Forks.legibleName {names : List String} (forks : Forks) (legible : forks.LegibleIn names)
    : ∀ name ∈ forks.names, LegibleName name := by
  intro name member
  cases forks with
  | last cue body => exact body.legibleName legible.2 name member
  | cons cue body rest =>
      rcases List.mem_append.mp member with inside | later
      · exact body.legibleName legible.2.1 name inside
      · exact rest.legibleName legible.2.2 name later

end

/-- A tree that is not empty has a row, by cases on its first part. -/
theorem Passage.rows_ne_nil {passage : Passage} (filled : passage ≠ .close .runsOut)
    : passage.rows ≠ [] := by
  cases passage with
  | remark remark rest =>
      intro none
      have noRow := (List.append_eq_nil_iff.mp none).1
      cases remark <;> cases noRow
  | choices forks rest => exact List.cons_ne_nil _ _
  | close closing =>
      cases closing with
      | runsOut => exact absurd rfl filled
      | ended | dead => exact List.cons_ne_nil _ _

/-- Lines that hold the rows of a legible tree are compiled by way of the outline of the tree, which
is closed and proper before it is settled.
-/
theorem Passage.Legible.outlines_outline {passage : Passage} (legible : passage.Legible)
    {lines : List Line} (holds : lines.map Line.row = passage.rows)
    : Line.Outlines lines ((passage.outline (Line.numberAt lines) 0).settle false)
      ∧ (passage.outline (Line.numberAt lines) 0).isFilled = true
      ∧ (passage.outline (Line.numberAt lines) 0).Proper := by
  have nameable := passage.legibleName legible.all
  have declared := (passage.opens nameable legible.all holds).optionNames
  have whole : lines.drop 0 = lines ++ [] := (List.append_nil lines).symm
  obtain ⟨reading, reads, outlined, -⟩ :=
    passage.reads nameable legible.all (List.Subset.refl _) whole holds (List.nil_subset _)
  rw [Nat.zero_add] at reads
  have someLine : lines ≠ [] := by
    rintro rfl
    exact Passage.rows_ne_nil legible.filled holds.symm
  rw [← outlined]
  exact ⟨.intro someLine declared reads, reads.proper⟩

/-- Lines that hold the rows of a legible tree are compiled by way of an outline of the tree, which
is settled at its end.
-/
theorem Passage.Legible.outlines {passage : Passage} (legible : passage.Legible) {lines : List Line}
    (holds : lines.map Line.row = passage.rows)
    : ∃ scope : Scope,
        Line.Outlines lines (scope.settle false)
        ∧ passage.Outlined scope
        ∧ scope.isFilled = true
        ∧ scope.Proper := by
  obtain ⟨outlines, filled, proper⟩ := legible.outlines_outline holds
  exact ⟨_, outlines, passage.outlined _ _, filled, proper⟩

end Dialogue
