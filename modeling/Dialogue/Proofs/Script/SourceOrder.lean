import Dialogue.Proofs.Script.Containment
import Dialogue.Proofs.Script.Sources
import Dialogue.Proofs.Script.Statements

/-! Source order: the slots of a compiled graph that are not placeholders come from different lines,
in the order of the lines.
-/

namespace Dialogue

namespace Line

theorem isTerminator_of_guard {line : Line} {names : List String} {guard : Guard}
    (labels : line.guard names = .ok (some guard))
    : line.isTerminator = false := by
  obtain ⟨text, shaped, -⟩ := guard_eq_some_iff.mp labels
  exact shaped.isTerminator

-----------------------------------------------------------------------------------------
-- Reading stays inside of bodies
-----------------------------------------------------------------------------------------

/-- What is read from `cursor` on has to stay in front of `stop`: all lines may be read, or a scan
of the enclosing block stops there.
-/
def Contained (lines : List Line) (declared : List String) (stop cursor : Nat) : Prop :=
  cursor ≤ stop ∧ (stop = lines.length ∨ ∃ depth, StopsAt lines declared depth cursor stop)

theorem contained_whole (lines : List Line) (declared : List String)
    : Contained lines declared lines.length 0 :=
  ⟨Nat.zero_le _, Or.inl rfl⟩

section Contained

variable {lines : List Line} {declared known : List String} {stop cursor : Nat} {line : Line}

/-- The body of a branch is contained in front of where it stops. -/
theorem StopsAt.contained {depth : Nat} (h : StopsAt lines declared depth cursor stop)
    : Contained lines declared stop cursor :=
  ⟨h.bounds.1, Or.inr ⟨depth, h⟩⟩

theorem of_before? (here : before? lines stop cursor = some line)
    : cursor < stop ∧ lines[cursor]? = some line := by
  unfold before? at here
  split at here
  · next inside => exact ⟨inside, here⟩
  · exact nomatch here

theorem Contained.after_line (h : Contained lines declared stop cursor) (before : cursor < stop)
    : Contained lines declared stop (cursor + 1) := by
  rcases h with ⟨-, whole | ⟨depth, stops⟩⟩
  · exact ⟨before, Or.inl whole⟩
  · obtain ⟨later, rest⟩ := stops.after_any before
    exact rest.contained

/-- After a label inside an inner block the scan is still inside of one. The label may itself look
like an opening tag to the scan.
-/
theorem StopsAt.after_label {nested index : Nat} {names : List String} {guard : Guard}
    (h : StopsAt lines declared (nested + 1) index stop) (here : lines[index]? = some line)
    (labels : line.guard names = .ok (some guard))
    : ∃ deeper, StopsAt lines declared (deeper + 1) (index + 1) stop := by
  cases opens : line.isOpening with
  | true => exact ⟨_, h.after_opening here opens⟩
  | false => exact ⟨_, h.after_other here opens (isTerminator_of_guard labels)⟩

/-- What an option block is read as is found on the lines behind the one that opens it. -/
theorem choicesFrom_of_readOption {name : String} {choices : List String} {close : Nat}
    (found : readOption lines cursor name = .ok (choices, close))
    : choicesFrom (cursor + 1) (lines.drop (cursor + 1)) = some (choices, close) := by
  unfold readOption at found
  split at found
  · exact nomatch found
  · exact nomatch found
  · next inner =>
      rw [inner]
      exact congrArg some (Except.ok.inj found)

/-- After an option block, reading is still contained. -/
theorem Contained.after_option (h : Contained lines declared stop cursor)
    (here : before? lines stop cursor = some line) (opens : line.isOpening = true)
    {name : String} {choices : List String} {close : Nat}
    (found : readOption lines cursor name = .ok (choices, close))
    : close < stop ∧ Contained lines declared stop (close + 1) := by
  have closes := choicesFrom_of_readOption found
  rcases h with ⟨-, rfl | ⟨depth, stops⟩⟩
  · have inside := lt_length_of_choicesFrom closes
    exact ⟨inside, inside, Or.inl rfl⟩
  · have inner := stops.after_opening (of_before? here).2 opens
    obtain ⟨before, later, rest⟩ := inner.after_choicesFrom closes
    exact ⟨before, rest.contained⟩

/-- After a choices block, reading is still contained. -/
theorem Contained.after_choices (h : Contained lines declared stop cursor)
    (here : before? lines stop cursor = some line) (opens : line.isOpening = true) {block : Block}
    (found : scanBlock lines declared cursor (cursor + 1) = .ok block)
    : block.close < stop ∧ Contained lines declared stop block.reconverge := by
  obtain ⟨first, guard, others, label, labels, scanned, rfl⟩ := labels_of_scanBlock found
  have scan := scans_of_scanFrom scanned
  rcases h with ⟨-, rfl | ⟨depth, stops⟩⟩
  · exact ⟨scan.close_lt_length, scan.close_lt_length, Or.inl rfl⟩
  · have inner := stops.after_opening (of_before? here).2 opens
    obtain ⟨deeper, afterLabel⟩ := inner.after_label label labels
    obtain ⟨before, later, rest⟩ := scan.close_lt (Nat.zero_le deeper) afterLabel
    exact ⟨before, rest.contained⟩

end Contained

-----------------------------------------------------------------------------------------
-- Numbers of a range of lines
-----------------------------------------------------------------------------------------

/-- The numbers of the lines from one index up to another. -/
def numbersBetween (lines : List Line) (low high : Nat) : List Nat :=
  ((lines.drop low).take (high - low)).map number

theorem numbersBetween_cons {lines : List Line} {low high : Nat} {line : Line}
    (here : lines[low]? = some line) (inside : low < high)
    : numbersBetween lines low high = line.number :: numbersBetween lines (low + 1) high :=
  congrArg (List.map number) (between_cons here inside)

theorem numbersBetween_append {lines : List Line} {low middle high : Nat} (le : low ≤ middle)
    (le_high : middle ≤ high)
    : numbersBetween lines low high
        = numbersBetween lines low middle ++ numbersBetween lines middle high :=
  (congrArg (List.map number) (between_append le le_high)).trans List.map_append

theorem numbersBetween_sublist {lines : List Line} {low lower high : Nat} (le : lower ≤ low)
    (le_high : low ≤ high)
    : (numbersBetween lines low high).Sublist (numbersBetween lines lower high) := by
  rw [numbersBetween_append le le_high]
  exact List.sublist_append_right _ _

theorem numbersBetween_sublist_all (lines : List Line) (low high : Nat)
    : (numbersBetween lines low high).Sublist (lines.map number) :=
  ((List.take_sublist _ _).trans (List.drop_sublist _ _)).map number

end Line

-----------------------------------------------------------------------------------------
-- Source lines of an outline
-----------------------------------------------------------------------------------------

mutual

/-- The lines that the beats, the blocks and the endings of a scope come from, in order. -/
def Scope.sourceLines : Scope → List Nat
  | .beat _ line rest => line :: rest.sourceLines
  | .block line branches rest => line :: (branches.sourceLines ++ rest.sourceLines)
  | .ended line => [line]
  | .dead _ | .runsOut _ | .unfilled => []

/-- The lines that the beats, the blocks and the endings of branches come from, in order. -/
def Branches.sourceLines : Branches → List Nat
  | .nil => []
  | .cons _ body rest => body.sourceLines ++ rest.sourceLines

end

theorem Scope.sourceLines_settle (scope : Scope) (waiting : Bool)
    : (scope.settle waiting).sourceLines = scope.sourceLines := by
  cases scope with
  | beat shown line rest => rw [settle, sourceLines, sourceLines, rest.sourceLines_settle]
  | block line branches rest =>
      rw [settle, sourceLines, sourceLines, rest.sourceLines_settle]
  | runsOut line => cases waiting <;> rfl
  | ended line | dead line | unfilled => rfl

mutual

/-- The slots of a scope that are not placeholders carry its source lines, by induction on the
outline.
-/
theorem Scope.lines_slots (scope : Scope) (base exit : Nat)
    : ((scope.slots base exit).filter fun slot => !slot.node.isPlaceholder).map Slot.line
        = scope.sourceLines := by
  cases scope with
  | beat shown line rest =>
      rw [Scope.slots, List.filter_cons_of_pos rfl, List.map_cons, rest.lines_slots]
      rfl
  | block line branches rest =>
      rw [Scope.slots, List.cons_append, List.filter_cons_of_pos rfl, List.filter_append,
        List.map_cons, List.map_append, branches.lines_slots, rest.lines_slots]
      rfl
  | ended line | dead line | runsOut line | unfilled => rfl

/-- The slots of branches that are not placeholders carry their source lines, by induction on the
outline.
-/
theorem Branches.lines_slots (branches : Branches) (base exit : Nat)
    : ((branches.slots base exit).filter fun slot => !slot.node.isPlaceholder).map Slot.line
        = branches.sourceLines := by
  cases branches with
  | nil => rfl
  | cons guard body rest =>
      rw [Branches.slots, List.filter_append, List.map_append, body.lines_slots, rest.lines_slots]
      rfl

end

-----------------------------------------------------------------------------------------
-- Source lines of what is read
-----------------------------------------------------------------------------------------

namespace Line

mutual

/-- What is read comes from the lines up to the cursor, each of them at most once and in order. By
induction on the rules.
-/
theorem Reads.sourceLines {lines : List Line} {declared : List String}
    : ∀ {stop cursor : Nat} {known : List String} {reading : Reading},
        Reads lines declared stop cursor known reading
        → Contained lines declared stop cursor
        → cursor ≤ reading.cursor
          ∧ reading.cursor ≤ stop
          ∧ reading.scope.sourceLines.Sublist (numbersBetween lines cursor reading.cursor)
  | _, _, _, _, .runsOut _, contained => ⟨Nat.le_refl _, contained.1, List.nil_sublist _⟩
  | _, _, _, _, .silent here _ _ rest, contained => by
      obtain ⟨before, inside⟩ := of_before? here
      obtain ⟨le, le_stop, sublist⟩ := rest.sourceLines (contained.after_line before)
      exact ⟨by omega, le_stop, sublist.trans (numbersBetween_sublist (Nat.le_succ _) le)⟩
  | _, _, _, _, .ended here _, contained => by
      obtain ⟨before, inside⟩ := of_before? here
      refine ⟨Nat.le_succ _, before, ?_⟩
      rw [numbersBetween_cons inside (Nat.lt_succ_self _)]
      exact List.singleton_sublist.mpr List.mem_cons_self
  | _, _, _, _, .dead here _, contained => by
      obtain ⟨before, -⟩ := of_before? here
      exact ⟨Nat.le_succ _, before, List.nil_sublist _⟩
  | _, _, _, _, .beat here _ _ rest, contained => by
      obtain ⟨before, inside⟩ := of_before? here
      obtain ⟨le, le_stop, sublist⟩ := rest.sourceLines (contained.after_line before)
      rw [Reading.cursor_afterBeat, Reading.scope_afterBeat]
      refine ⟨Nat.le_of_succ_le le, le_stop, ?_⟩
      rw [numbersBetween_cons inside le]
      exact sublist.cons_cons _
  | _, _, _, _, .option here means found rest, contained => by
      obtain ⟨before, inside⟩ := of_before? here
      obtain ⟨-, after⟩ := contained.after_option here (isOpening_of_option means) found
      obtain ⟨le, le_stop, sublist⟩ := rest.sourceLines after
      have opened := lt_of_readOption found
      rw [Reading.cursor_afterBeat, Reading.scope_afterBeat]
      refine ⟨by omega, le_stop, ?_⟩
      rw [numbersBetween_cons inside (by omega)]
      exact (sublist.trans (numbersBetween_sublist (by omega) le)).cons_cons _
  | _, _, _, _, .choices here means found bodies rest, contained => by
      obtain ⟨before, inside⟩ := of_before? here
      obtain ⟨-, after⟩ := contained.after_choices here (isOpening_of_choices means) found
      obtain ⟨le, le_stop, sublist⟩ := rest.sourceLines after
      obtain ⟨low, bodiesSublist⟩ := bodies.sourceLines (successive_of_scanBlock found)
      unfold Block.reconverge at le sublist
      rw [Reading.cursor_afterBlock, Reading.scope_afterBlock]
      refine ⟨by omega, le_stop, ?_⟩
      -- the opening line comes first, then the bodies, then what is read behind the closing line
      rw [numbersBetween_cons inside (by omega), numbersBetween_append low (by omega)]
      have later := sublist.trans (numbersBetween_sublist (Nat.le_succ _) le)
      exact (bodiesSublist.append later).cons_cons _

/-- What is read of branches comes from the lines of their block, each of them at most once and in
order. By induction on the rules.
-/
theorem ReadsBranches.sourceLines {lines : List Line} {declared : List String}
    : ∀ {branches : List Branch} {known later : List String} {result : Branches},
        ReadsBranches lines declared branches known result later
        → ∀ {low close : Nat},
            Successive lines declared close low branches
            → low ≤ close ∧ result.sourceLines.Sublist (numbersBetween lines low close)
  | _, _, _, _, .nil, _, _, successive => ⟨successive, List.nil_sublist _⟩
  | branch :: _, _, _, _, .cons body tail, low, close, ⟨le, stops, rest⟩ => by
      obtain ⟨bodyLe, bodyStop, bodySublist⟩ := body.sourceLines stops.contained
      obtain ⟨tailLe, tailSublist⟩ := tail.sourceLines rest
      have start : branch.start = branch.label + 1 := rfl
      refine ⟨by omega, ?_⟩
      rw [numbersBetween_append (by omega : low ≤ branch.start) (by omega),
        numbersBetween_append bodyLe (by omega)]
      have later := tailSublist.trans (numbersBetween_sublist bodyStop tailLe)
      exact (bodySublist.append later).trans (List.sublist_append_right _ _)

end

/-- The parts of an outline come from different lines, in the order of their numbers. -/
theorem Outlines.sourceLines {lines : List Line} {scope : Scope} (numbered : Numbered lines)
    (outlines : Outlines lines scope)
    : (0 :: scope.sourceLines).Pairwise (· < ·) := by
  obtain ⟨-, -, reads⟩ := outlines
  obtain ⟨-, -, sublist⟩ := reads.sourceLines (contained_whole _ _)
  rw [Scope.sourceLines_settle]
  have all := sublist.trans (numbersBetween_sublist_all _ _ _)
  exact List.Pairwise.sublist (all.cons_cons 0) numbered

end Line

-----------------------------------------------------------------------------------------
-- Source lines of compiled graphs
-----------------------------------------------------------------------------------------

/-- Of two slots of an outline that are not placeholders, the earlier one comes from an earlier
line.
-/
theorem Scope.line_lt_line {scope : Scope} (ordered : (0 :: scope.sourceLines).Pairwise (· < ·))
    {low high : Nat} (positive : 0 < low) (lt : low < high) (inside : high ≤ scope.size)
    (keptLow : (scope.layout.node low).isPlaceholder = false)
    (keptHigh : (scope.layout.node high).isPlaceholder = false)
    : scope.layout.line low < scope.layout.line high := by
  have slots := (List.pairwise_cons.mp ordered).2
  rw [← scope.lines_slots 1 (scope.size + 1), List.pairwise_map, List.pairwise_filter] at slots
  have found (id : Nat) (positive : 0 < id) (inside : id ≤ scope.size)
      : ∃ h : id - 1 < (scope.slots 1 (scope.size + 1)).length,
          scope.layout.slot id = (scope.slots 1 (scope.size + 1))[id - 1] := by
    have h : id - 1 < (scope.slots 1 (scope.size + 1)).length := by
      rw [Scope.length_slots]
      omega
    have there := scope.holds_layout (id - 1) _ (List.getElem?_eq_getElem h)
    rw [Nat.add_sub_cancel' positive] at there
    exact ⟨h, Graph.slot_of_getElem? there⟩
  obtain ⟨lowInside, lowSlot⟩ := found low positive (by omega)
  obtain ⟨highInside, highSlot⟩ := found high (by omega) inside
  rw [Graph.node, lowSlot] at keptLow
  rw [Graph.node, highSlot] at keptHigh
  rw [Graph.line, Graph.line, lowSlot, highSlot]
  exact List.pairwise_iff_getElem.mp slots _ _ lowInside highInside (by omega)
    (by simp [keptLow]) (by simp [keptHigh])

/-- Slots of a compiled graph that are neither its start nor placeholders come from different lines,
in the order of the lines, except that the last slot may be an ending that comes from no line.
-/
theorem Script.Compiled.line_lt_line {graph : Graph} (compiled : Script.Compiled graph)
    {low high : Nat} (positive : graph.root < low) (lt : low < high)
    (keptLow : (graph.node low).isPlaceholder = false)
    (keptHigh : (graph.node high).isPlaceholder = false)
    : graph.line low < graph.line high
      ∨ (graph.node high = .ending ∧ graph.line high = 0 ∧ high + 1 = graph.size) := by
  obtain ⟨lines, scope, numbered, outlines, rfl⟩ := compiled.exists_lines
  rw [Graph.root_splice] at positive
  rw [Graph.node_splice] at keptLow keptHigh
  rw [Graph.node_splice, Graph.line_splice, Graph.line_splice, Graph.size_splice]
  have inside := Graph.lt_size_of_not_placeholder keptHigh
  have sizes := scope.size_layout
  by_cases inScope : high ≤ scope.size
  · exact Or.inl (Scope.line_lt_line (outlines.sourceLines numbered) positive lt inScope keptLow
      keptHigh)
  · have loose : scope.isLoose = true := by
      by_contra notLoose
      rw [if_neg notLoose] at sizes
      omega
    rw [if_pos loose] at sizes
    obtain rfl : high = scope.size + 1 := by omega
    refine Or.inr ⟨scope.node_layout_exit loose, scope.line_layout_exit loose, by omega⟩

end Dialogue
