import Dialogue.Proofs.Graph.Splicing
import Dialogue.Proofs.Script.Sources
import Dialogue.Proofs.Text.Trimming

/-! Line numbers are only carried along. When the lines of a script are numbered anew, the graph
that they are compiled to and the fault that is named are the same up to the new numbers. So blank
lines in the text of a script make no difference but to the numbers of the other lines.
-/

namespace Dialogue

/-- The fault with the number of its line replaced. -/
def ScriptError.renumber (f : Nat → Nat) : ScriptError → ScriptError
  | .empty => .empty
  | .missingTag line text => .missingTag (f line) text
  | .emptyTag line => .emptyTag (f line)
  | .tooManyTags line count => .tooManyTags (f line) count
  | .missingOptionName line => .missingOptionName (f line)
  | .unterminatedOption name line => .unterminatedOption name (f line)
  | .emptyOption name line => .emptyOption name (f line)
  | .unterminatedChoices line => .unterminatedChoices (f line)
  | .expectedBranch line found => .expectedBranch (f line) found
  | .invalidThreshold line option value => .invalidThreshold (f line) option value

def Slot.renumber (f : Nat → Nat) (slot : Slot) : Slot :=
  { slot with line := f slot.line }

/-- The graph with the line numbers of all its slots replaced. -/
def Graph.renumber (f : Nat → Nat) (graph : Graph) : Graph :=
  { graph with slots := graph.slots.map (Slot.renumber f) }

def Line.renumber (f : Nat → Nat) (line : Line) : Line :=
  { line with number := f line.number }

mutual

/-- The scope with the line numbers of all its parts replaced. -/
def Scope.renumber (f : Nat → Nat) : Scope → Scope
  | .beat shown line rest => .beat shown (f line) (rest.renumber f)
  | .block line branches rest => .block (f line) (branches.renumber f) (rest.renumber f)
  | .ended line => .ended (f line)
  | .dead line => .dead (f line)
  | .runsOut line => .runsOut (f line)
  | .unfilled => .unfilled

def Branches.renumber (f : Nat → Nat) : Branches → Branches
  | .nil => .nil
  | .cons guard body rest => .cons guard (body.renumber f) (rest.renumber f)

end

def Reading.renumber (f : Nat → Nat) (reading : Reading) : Reading :=
  { reading with scope := reading.scope.renumber f }

-----------------------------------------------------------------------------------------
-- Outcomes
-----------------------------------------------------------------------------------------

section Outcomes

variable {α β γ δ : Type} {f : Nat → Nat}

/-- The outcome with the line number of its fault replaced, or with its value changed. -/
def renumbered (f : Nat → Nat) (change : α → β) : Except ScriptError α → Except ScriptError β
  | .ok value => .ok (change value)
  | .error error => .error (error.renumber f)

/-- A sequence is renumbered by renumbering its parts, by cases on the first outcome. -/
theorem renumbered_bind {change : α → β} {changeNext : γ → δ} {first : Except ScriptError α}
    {next : α → Except ScriptError γ} {other : β → Except ScriptError δ}
    (same : ∀ value, other (change value) = renumbered f changeNext (next value))
    : renumbered f change first >>= other = renumbered f changeNext (first >>= next) := by
  cases first with
  | ok value => exact same value
  | error error => rfl

theorem renumbered_map {change : α → β} {changeNext : γ → δ} {first : Except ScriptError α}
    {next : α → γ} {other : β → δ} (same : ∀ value, other (change value) = changeNext (next value))
    : other <$> renumbered f change first = renumbered f changeNext (next <$> first) := by
  cases first with
  | ok value => exact congrArg Except.ok (same value)
  | error error => rfl

/-- Results are renumbered together if each of them is, by induction on the items. -/
theorem mapM_renumbered {step : α → Except ScriptError γ} {otherStep : β → Except ScriptError δ}
    {change : α → β} {changeResult : γ → δ} {items : List α}
    (same : ∀ item ∈ items, otherStep (change item) = renumbered f changeResult (step item))
    : (items.map change).mapM otherStep
        = renumbered f (List.map changeResult) (items.mapM step) := by
  induction items with
  | nil => rfl
  | cons item rest ih =>
      have later := ih fun other member => same other (List.mem_cons_of_mem _ member)
      rw [List.map_cons, List.mapM_cons, List.mapM_cons, same item List.mem_cons_self, later]
      refine renumbered_bind fun value => renumbered_bind fun values => ?_
      rfl

end Outcomes

-----------------------------------------------------------------------------------------
-- Lines and blocks
-----------------------------------------------------------------------------------------

namespace Line

variable {f : Nat → Nat}

theorem plainStatement_renumber (line : Line)
    : (line.renumber f).plainStatement = renumbered f id line.plainStatement := by
  obtain ⟨number, tags, content⟩ := line
  simp only [plainStatement, renumber]
  split <;> try rfl
  by_cases empty : content.isEmpty = true <;> simp [empty, renumbered, ScriptError.renumber]

theorem statement_renumber (known : List String) (line : Line)
    : (line.renumber f).statement known = renumbered f id (line.statement known) := by
  have same : (line.renumber f).labelParts? known = line.labelParts? known := rfl
  rw [statement, statement, same, plainStatement_renumber]
  split <;> rfl

theorem guard_renumber (names : List String) (line : Line)
    : (line.renumber f).guard names = renumbered f id (line.guard names) := by
  have same : (line.renumber f).labelParts? names = line.labelParts? names := rfl
  rw [guard, guard, same]
  split
  · rfl
  · split <;> rfl

theorem optionNames_renumber (lines : List Line)
    : optionNames (lines.map (renumber f)) = renumbered f id (optionNames lines) := by
  have kept : (lines.map (renumber f)).filter (fun line => line.first? = some "option")
      = (lines.filter fun line => line.first? = some "option").map (renumber f) :=
    List.filter_map
  rw [optionNames, optionNames, kept, mapM_renumbered fun line _ => line.plainStatement_renumber]
  refine renumbered_bind fun statements => ?_
  simp [renumbered, pure, Except.pure]

theorem numberAt_renumber (zero : f 0 = 0) (lines : List Line) (index : Nat)
    : numberAt (lines.map (renumber f)) index = f (numberAt lines index) := by
  unfold numberAt
  rw [List.getElem?_map]
  cases lines[index]? with
  | none => exact zero.symm
  | some line => rfl

theorem before?_renumber (lines : List Line) (stop index : Nat)
    : before? (lines.map (renumber f)) stop index
      = (before? lines stop index).map (renumber f) := by
  unfold before?
  split
  · exact List.getElem?_map
  · rfl

theorem choicesFrom_renumber (index : Nat) (lines : List Line)
    : choicesFrom index (lines.map (renumber f)) = choicesFrom index lines := by
  induction lines generalizing index with
  | nil => rfl
  | cons line rest ih =>
      simp only [List.map_cons, choicesFrom, ih]
      rfl

theorem readOption_renumber (zero : f 0 = 0) (lines : List Line) (opened : Nat) (name : String)
    : readOption (lines.map (renumber f)) opened name
      = renumbered f id (readOption lines opened name) := by
  unfold readOption
  rw [← List.map_drop, choicesFrom_renumber, numberAt_renumber zero]
  split <;> rfl

/-- Where a block closes and which labels it has does not depend on numbers, by induction on the
lines.
-/
theorem scanFrom_renumber (names : List String) (nested index : Nat) (lines : List Line)
    : scanFrom names nested index (lines.map (renumber f)) = scanFrom names nested index lines := by
  induction lines generalizing nested index with
  | nil => rfl
  | cons line rest ih =>
      simp only [List.map_cons, scanFrom, ih]
      rfl

theorem scanBlock_renumber (zero : f 0 = 0) (lines : List Line) (names : List String)
    (opened start : Nat)
    : scanBlock (lines.map (renumber f)) names opened start
      = renumbered f id (scanBlock lines names opened start) := by
  unfold scanBlock
  rw [List.getElem?_map, numberAt_renumber zero]
  cases lines[start]? with
  | none => rfl
  | some first =>
      simp only [Option.map_some, guard_renumber, ← List.map_drop, scanFrom_renumber]
      cases first.guard names with
      | error error => rfl
      | ok found =>
          cases found with
          | none => rfl
          | some guard =>
              cases scanFrom names 0 (start + 1) (lines.drop (start + 1)) <;> rfl

-----------------------------------------------------------------------------------------
-- Reading
-----------------------------------------------------------------------------------------

/-- Branches are renumbered if their bodies are, by induction on their list. -/
theorem readBranches_renumber {lines : List Line} {declared known : List String} {opened : Nat}
    {branches : List Branch}
    (each : ∀ branch ∈ branches, ∀ known,
      (readScope (lines.map (renumber f)) declared branch.stop branch.start known).outcome
        = renumbered f (Reading.renumber f)
            (readScope lines declared branch.stop branch.start known).outcome)
    : (readBranches (lines.map (renumber f)) opened branches
        (fun branch _ => readScope (lines.map (renumber f)) declared branch.stop branch.start)
          known).outcome
      = renumbered f (Prod.map (Branches.renumber f) id)
          (readBranches lines opened branches
            (fun branch _ => readScope lines declared branch.stop branch.start) known).outcome := by
  induction branches generalizing known with
  | nil => rfl
  | cons branch rest ih =>
      have head := each branch List.mem_cons_self known
      have tail := fun other member => each other (List.mem_cons_of_mem branch member)
      rw [readBranches_cons, readBranches_cons, Logged.outcome_bind, Logged.outcome_bind, head]
      refine renumbered_bind fun body => ?_
      rw [Logged.outcome_bind, Logged.outcome_bind]
      show (readBranches _ _ _ _ body.known).outcome >>= _ = _
      rw [ih tail]
      exact renumbered_bind fun _ => rfl

/-- A scope is read in the same way whatever the numbers of its lines are, by induction on the lines
that are left.
-/
theorem readScope_renumber (zero : f 0 = 0) {lines : List Line} {declared : List String}
    (stop cursor : Nat) (known : List String)
    : (readScope (lines.map (renumber f)) declared stop cursor known).outcome
      = renumbered f (Reading.renumber f)
          (readScope lines declared stop cursor known).outcome := by
  have same {stop cursor : Nat} {line : Line} (here : before? lines stop cursor = some line)
      : before? (lines.map (renumber f)) stop cursor = some (line.renumber f) := by
    rw [before?_renumber, here, Option.map_some]
  have saysSame {line : Line} {known : List String} {statement : Statement}
      (means : line.statement known = .ok statement)
      : (line.renumber f).statement known = .ok statement := by
    rw [statement_renumber, means]
    rfl
  induction stop, cursor, known using readScope.induct lines declared with
  | case1 stop cursor known noLine =>
      have noOther : before? (lines.map (renumber f)) stop cursor = none := by
        rw [before?_renumber, noLine, Option.map_none]
      rw [readScope_runsOut noLine, readScope_runsOut noOther, numberAt_renumber zero]
      rfl
  | case2 stop cursor known line here error means =>
      have failed : (line.renumber f).statement known = .error (error.renumber f) := by
        rw [statement_renumber, means]
        rfl
      rw [readScope_error here means, readScope_error (same here) failed]
      rfl
  | case3 stop cursor known line here means ih
  | case4 stop cursor known line here _ means ih =>
      rw [readScope_silent here means rfl, readScope_silent (same here) (saysSame means) rfl]
      exact ih
  | case5 stop cursor known line here means =>
      rw [readScope_ended here means, readScope_ended (same here) (saysSame means)]
      rfl
  | case6 stop cursor known line here means =>
      rw [readScope_dead here means, readScope_dead (same here) (saysSame means)]
      rfl
  | case7 stop cursor known line here _ means ih
  | case8 stop cursor known line here _ _ means ih
  | case9 stop cursor known line here _ _ means ih =>
      rw [readScope_beat here means rfl, readScope_beat (same here) (saysSame means) rfl,
        Logged.outcome_map, Logged.outcome_map, ih]
      exact renumbered_map fun _ => rfl
  | case10 stop cursor known line here name means error failed =>
      have otherFailed : readOption (lines.map (renumber f)) cursor name
          = .error (error.renumber f) := by
        rw [readOption_renumber zero, failed]
        rfl
      rw [readScope_option_error here means failed,
        readScope_option_error (same here) (saysSame means) otherFailed]
      rfl
  | case11 stop cursor known line here name means choices close found ih =>
      have otherFound : readOption (lines.map (renumber f)) cursor name = .ok (choices, close) := by
        rw [readOption_renumber zero, found]
        rfl
      rw [readScope_option here means found,
        readScope_option (same here) (saysSame means) otherFound, Logged.outcome_map,
        Logged.outcome_map, ih]
      exact renumbered_map fun _ => rfl
  | case12 stop cursor known line here means error failed =>
      have otherFailed : scanBlock (lines.map (renumber f)) declared cursor (cursor + 1)
          = .error (error.renumber f) := by
        rw [scanBlock_renumber zero, failed]
        rfl
      rw [readScope_choices_error here means failed,
        readScope_choices_error (same here) (saysSame means) otherFailed]
      rfl
  | case13 stop cursor known line here means block found ihBranches ih =>
      have otherFound : scanBlock (lines.map (renumber f)) declared cursor (cursor + 1)
          = .ok block := by
        rw [scanBlock_renumber zero, found]
        rfl
      rw [readScope_choices here means found,
        readScope_choices (same here) (saysSame means) otherFound, Logged.outcome_bind,
        Logged.outcome_bind,
        readBranches_renumber fun branch member known => ihBranches branch member known]
      refine renumbered_bind fun bodies => ?_
      rw [Logged.outcome_map, Logged.outcome_map]
      show _ <$> (readScope _ _ _ _ bodies.2).outcome = _
      rw [ih bodies.2]
      exact renumbered_map fun _ => rfl

end Line

-----------------------------------------------------------------------------------------
-- Layout
-----------------------------------------------------------------------------------------

section Layout

variable {f : Nat → Nat}

mutual

theorem Scope.isLoose_renumber : (scope : Scope) → (scope.renumber f).isLoose = scope.isLoose
  | .beat _ _ rest => rest.isLoose_renumber
  | .block _ _ rest => rest.isLoose_renumber
  | .ended _ | .dead _ | .runsOut _ | .unfilled => rfl

theorem Branches.anyLoose_renumber
    : (branches : Branches) → (branches.renumber f).anyLoose = branches.anyLoose
  | .nil => rfl
  | .cons _ body rest => by
      simp only [Branches.renumber, Branches.anyLoose, body.isLoose_renumber,
        rest.anyLoose_renumber]

end

/-- Settling the end of a scope does not depend on numbers, by induction on its rest. -/
theorem Scope.settle_renumber (waiting : Bool)
    : (scope : Scope) → (scope.renumber f).settle waiting = (scope.settle waiting).renumber f
  | .beat _ _ rest => by simp only [Scope.renumber, Scope.settle, rest.settle_renumber]
  | .block _ branches rest => by
      simp only [Scope.renumber, Scope.settle, branches.anyLoose_renumber, rest.settle_renumber]
  | .runsOut _ => by cases waiting <;> rfl
  | .ended _ | .dead _ | .unfilled => rfl

theorem Branches.guards_renumber
    : (branches : Branches) → (branches.renumber f).guards = branches.guards
  | .nil => rfl
  | .cons _ _ rest => by simp only [Branches.renumber, Branches.guards, rest.guards_renumber]

mutual

theorem Scope.size_renumber : (scope : Scope) → (scope.renumber f).size = scope.size
  | .beat _ _ rest => by simp only [Scope.renumber, Scope.size, rest.size_renumber]
  | .block _ branches rest => by
      simp only [Scope.renumber, Scope.size, branches.size_renumber, rest.size_renumber]
  | .ended _ | .dead _ | .runsOut _ | .unfilled => rfl

theorem Branches.size_renumber
    : (branches : Branches) → (branches.renumber f).size = branches.size
  | .nil => rfl
  | .cons _ body rest => by
      simp only [Branches.renumber, Branches.size, body.size_renumber, rest.size_renumber]

end

theorem Branches.heads_renumber (base : Nat)
    : (branches : Branches) → (branches.renumber f).heads base = branches.heads base
  | .nil => rfl
  | .cons _ body rest => by
      simp only [Branches.renumber, Branches.heads, body.size_renumber, rest.heads_renumber]

mutual

/-- The slots of a scope differ in their line numbers only, by induction on the scope. -/
theorem Scope.slots_renumber (zero : f 0 = 0) (base exit : Nat)
    : (scope : Scope)
      → (scope.renumber f).slots base exit = (scope.slots base exit).map (Slot.renumber f)
  | .beat _ _ rest => by
      simp only [Scope.renumber, Scope.slots, rest.slots_renumber zero, List.map_cons]
      rfl
  | .block _ branches rest => by
      simp only [Scope.renumber, Scope.slots, branches.guards_renumber, branches.heads_renumber,
        branches.size_renumber, branches.slots_renumber zero, rest.slots_renumber zero,
        List.map_append, List.map_cons]
      rfl
  | .ended _ | .dead _ | .runsOut _ => rfl
  | .unfilled => by simp [Scope.renumber, Scope.slots, Slot.renumber, zero]

theorem Branches.slots_renumber (zero : f 0 = 0) (base exit : Nat)
    : (branches : Branches)
      → (branches.renumber f).slots base exit = (branches.slots base exit).map (Slot.renumber f)
  | .nil => rfl
  | .cons _ body rest => by
      simp only [Branches.renumber, Branches.slots, body.size_renumber, body.slots_renumber zero,
        rest.slots_renumber zero, List.map_append]

end

theorem Scope.layout_renumber (zero : f 0 = 0) (scope : Scope)
    : (scope.renumber f).layout = scope.layout.renumber f := by
  simp only [layout, Graph.renumber, scope.size_renumber, scope.isLoose_renumber,
    scope.slots_renumber zero, List.map_append, List.map_cons, Graph.mk.injEq, and_true]
  split <;> simp [Slot.renumber, zero]

namespace Graph

variable (f) (graph : Graph)

theorem size_renumber : (graph.renumber f).size = graph.size := by
  simp [size, renumber]

variable {f}

theorem slot_renumber (zero : f 0 = 0) (id : Nat)
    : (graph.renumber f).slot id = (graph.slot id).renumber f := by
  simp only [slot, renumber, List.getElem?_map]
  cases graph.slots[id]? with
  | none => simp [Slot.renumber, zero]
  | some found => rfl

theorem expandTo_renumber (zero : f 0 = 0) (depth id : Nat)
    : (graph.renumber f).expandTo depth id = graph.expandTo depth id := by
  induction depth generalizing id with
  | zero => rfl
  | succ depth ih =>
      simp only [expandTo, node, next, graph.slot_renumber zero]
      rw [funext ih]
      rfl

/-- Splicing does not look at line numbers. -/
theorem splice_renumber (zero : f 0 = 0)
    : (graph.renumber f).splice = graph.splice.renumber f := by
  have expand : (graph.renumber f).expand = graph.expand := by
    funext id
    rw [Graph.expand, Graph.expand, size_renumber, graph.expandTo_renumber zero]
  have expandedNext : (graph.renumber f).expandedNext = graph.expandedNext := by
    funext id
    rw [Graph.expandedNext, Graph.expandedNext, expand, next, graph.slot_renumber zero]
    rfl
  have spliced : (graph.renumber f).spliced = graph.spliced := by
    rw [Graph.spliced, Graph.spliced, expandedNext, size_renumber]
    rfl
  refine eq_of_slot rfl (by simp [size_renumber]) fun id => ?_
  rw [slot_splice, spliced, expandedNext, slot_renumber _ zero, slot_renumber _ zero, slot_splice]
  split <;> rfl

end Graph

end Layout

-----------------------------------------------------------------------------------------
-- Compiling
-----------------------------------------------------------------------------------------

namespace Line

variable {f : Nat → Nat}

/-- Compiling lines that are numbered anew gives the same outcome up to the new numbers. -/
theorem compile_renumber (zero : f 0 = 0) (lines : List Line)
    : (compile (lines.map (renumber f))).outcome
      = renumbered f (Graph.renumber f) (compile lines).outcome := by
  by_cases none : lines = []
  · subst none
    rfl
  · have someOther : lines.map (renumber f) ≠ [] := fun same => none (List.map_eq_nil_iff.mp same)
    rw [outcome_compile none, outcome_compile someOther, optionNames_renumber]
    refine renumbered_bind fun declared => ?_
    rw [List.length_map, id, readScope_renumber zero]
    refine renumbered_map fun reading => ?_
    rw [Reading.renumber, Scope.settle_renumber, Scope.layout_renumber zero,
      Graph.splice_renumber _ zero]

theorem decode_renumber (number : Nat) (text : String)
    : decode (f number) text = renumbered f (renumber f) (decode number text) := by
  simp only [decode]
  split
  · rfl
  · split
    · rfl
    · split <;> rfl

theorem decodeAll_renumber (entries : List (Nat × String))
    : decodeAll (entries.map (Prod.map f id))
      = renumbered f (List.map (renumber f)) (decodeAll entries) :=
  mapM_renumbered fun entry _ => decode_renumber entry.1 entry.2

end Line

namespace Script

/-- The number that a line has, where these are the numbers of the lines and it is counted as the
line of this number among them. What is counted as 0 is no line.
-/
def originalNumber (numbers : List Nat) : (counted : Nat) → Nat
  | 0 => 0
  | counted + 1 => numbers.getD counted 0

/-- Counting the texts of numbered lines anew and giving them their numbers back changes nothing. -/
theorem map_originalNumber (entries : List (Nat × String))
    : ((((entries.map Prod.snd).zipIdx 1).map Prod.swap).map
        (Prod.map (originalNumber (entries.map Prod.fst)) id))
      = entries := by
  refine List.ext_getElem (by simp) fun index _ inside => ?_
  simp [originalNumber, Nat.add_comm 1, inside]

/-- Numbered lines are decoded as they are when they are counted, up to their numbers. -/
theorem decodeAll_eq_renumbered (entries : List (Nat × String))
    : Line.decodeAll entries
      = renumbered (originalNumber (entries.map Prod.fst))
          (List.map (Line.renumber (originalNumber (entries.map Prod.fst))))
          (Line.decodeAll (((entries.map Prod.snd).zipIdx 1).map Prod.swap)) := by
  rw [← Line.decodeAll_renumber, map_originalNumber]

/-- The numbered lines of a text are those that are not blank, under their numbers in the text. -/
theorem mem_numberedLines_iff {source : String} {number : Nat} {text : String}
    : (number, text) ∈ numberedLines source
      ↔ ∃ index line,
          number = index + 1
          ∧ (Text.split '\n' source.toList)[index]? = some line
          ∧ Text.trim line ≠ []
          ∧ text = String.ofList (Text.trim line) := by
  simp only [numberedLines, List.mem_map, List.mem_filter, Prod.exists, Prod.mk.injEq]
  constructor
  · rintro ⟨shown, count, ⟨entry, filled⟩, rfl, rfl⟩
    obtain ⟨counted, found⟩ := List.mk_mem_zipIdx_iff_le_and_getElem?_sub.mp entry
    rw [List.getElem?_map] at found
    obtain ⟨line, isLine, rfl⟩ := Option.map_eq_some_iff.mp found
    exact ⟨count - 1, line, (Nat.sub_add_cancel counted).symm, isLine, by simpa using filled, rfl⟩
  · rintro ⟨index, line, rfl, isLine, filled, rfl⟩
    refine ⟨Text.trim line, index + 1, ⟨?_, by simpa using filled⟩, rfl, rfl⟩
    refine List.mk_mem_zipIdx_iff_le_and_getElem?_sub.mpr ⟨Nat.le_add_left 1 index, ?_⟩
    rw [Nat.add_sub_cancel, List.getElem?_map, isLine, Option.map_some]

/-- The texts of the numbered lines are trimmed already. -/
theorem map_trimmed_numberedLines (source : String)
    : ((numberedLines source).map Prod.snd).map trimmed = (numberedLines source).map Prod.snd := by
  rw [List.map_congr_left fun text member => ?_, List.map_id]
  obtain ⟨⟨number, _⟩, entry, rfl⟩ := List.mem_map.mp member
  obtain ⟨_, line, -, -, -, rfl⟩ := mem_numberedLines_iff.mp entry
  rw [trimmed, String.toList_ofList]
  exact congrArg String.ofList (Text.trimmed_trim line)

/-- Compiling the text of a script is compiling its lines that are not blank, trimmed, with their
numbers in the text in the place of the numbers that they are counted by.
-/
theorem compileText_eq_renumbered (source : String)
    : ((numberedLines source).map Prod.fst).Pairwise (· < ·)
      ∧ (∀ number text,
          (number, text) ∈ numberedLines source
          ↔ ∃ index line,
              number = index + 1
              ∧ (Text.split '\n' source.toList)[index]? = some line
              ∧ Text.trim line ≠ []
              ∧ text = String.ofList (Text.trim line))
      ∧ (compileText source).outcome
        = renumbered (originalNumber ((numberedLines source).map Prod.fst))
            (Graph.renumber (originalNumber ((numberedLines source).map Prod.fst)))
            (compile ((numberedLines source).map Prod.snd)).outcome := by
  refine ⟨(List.pairwise_cons.mp (pairwise_numberedLines source)).2,
    fun _ _ => mem_numberedLines_iff, ?_⟩
  rw [compileText, compile, Logged.outcome_bind, Logged.outcome_bind, Logged.outcome_ofExcept,
    Logged.outcome_ofExcept, map_trimmed_numberedLines, decodeAll_eq_renumbered]
  exact renumbered_bind fun lines => Line.compile_renumber rfl lines

end Script

end Dialogue
