import Dialogue.Proofs.Script.Nesting
import Dialogue.Proofs.Script.Shape
import Dialogue.Proofs.Script.SourceOrder

/-! Fidelity to the source: every slot of a compiled graph that is not a placeholder is what one
line of the script states, and no line is compiled twice.
-/

namespace Dialogue

namespace Line

/-- The node that a line states at its index. An option has the lines up to the next sole closing
tag as its choices, and a choice has the guards of the labels that the scan finds for its block.
-/
inductive States (lines : List Line) (declared : List String) (index : Nat) (line : Line)
    : Node → Prop where
  | beat {statement shown} (tells : line.Tells statement) (shows : statement.beat? = some shown)
    : States lines declared index line (.beat shown)
  | option {name close} (tells : line.Tells (.option name))
    (closes : ClosesFirst lines (index + 1) close)
    : States lines declared index line
        (.beat (.option name ((between lines (index + 1) close).map choice)))
  | choices {block} (tells : line.Tells .choices)
    (found : scanBlock lines declared index (index + 1) = .ok block)
    : States lines declared index line (.choice (block.labels.map Label.guard))
  | ending (tells : line.Tells .ending) : States lines declared index line .ending

/-- No line states two nodes, since it does not tell two statements. -/
theorem States.unique {lines : List Line} {declared : List String} {index : Nat} {line : Line}
    {left right : Node} (first : States lines declared index line left)
    (second : States lines declared index line right)
    : left = right := by
  cases first with
  | beat tells shows =>
      cases second with
      | beat otherTells otherShows =>
          obtain rfl := tells.unique otherTells
          rw [Option.some.inj (shows.symm.trans otherShows)]
      | option otherTells | choices otherTells | ending otherTells =>
          obtain rfl := tells.unique otherTells
          cases shows
  | option tells closes =>
      cases second with
      | beat otherTells shows =>
          obtain rfl := tells.unique otherTells
          cases shows
      | option otherTells otherCloses =>
          cases tells.unique otherTells
          rw [closes.unique otherCloses]
      | choices otherTells | ending otherTells => cases tells.unique otherTells
  | choices tells found =>
      cases second with
      | beat otherTells shows =>
          obtain rfl := tells.unique otherTells
          cases shows
      | choices _ otherFound => rw [Except.ok.inj (found.symm.trans otherFound)]
      | option otherTells | ending otherTells => cases tells.unique otherTells
  | ending tells =>
      cases second with
      | beat otherTells shows =>
          obtain rfl := tells.unique otherTells
          cases shows
      | ending _ => rfl
      | option otherTells | choices otherTells => cases tells.unique otherTells

end Line

-----------------------------------------------------------------------------------------
-- Parts of an outline
-----------------------------------------------------------------------------------------

mutual

/-- Every beat, block and ending of a scope, as a node with its line, is one of these. -/
def Scope.Every (holds : Nat → Node → Prop) : Scope → Prop
  | .beat shown line rest => holds line (.beat shown) ∧ rest.Every holds
  | .block line branches rest =>
      holds line (.choice branches.guards) ∧ branches.Every holds ∧ rest.Every holds
  | .ended line => holds line .ending
  | .dead _ | .runsOut _ | .unfilled => True

/-- Every beat, block and ending of branches is one of these. -/
def Branches.Every (holds : Nat → Node → Prop) : Branches → Prop
  | .nil => True
  | .cons _ body rest => body.Every holds ∧ rest.Every holds

end

theorem Scope.every_settle {holds : Nat → Node → Prop} {scope : Scope} (every : scope.Every holds)
    (waiting : Bool)
    : (scope.settle waiting).Every holds := by
  cases scope with
  | beat shown line rest => exact ⟨every.1, every_settle every.2 false⟩
  | block line branches rest => exact ⟨every.1, every.2.1, every_settle every.2.2 _⟩
  | runsOut line => cases waiting <;> trivial
  | ended line | dead line | unfilled => exact every

mutual

/-- The slots of a scope that are not placeholders are its parts, by induction on the outline. -/
theorem Scope.Every.of_mem_slots {holds : Nat → Node → Prop} {scope : Scope}
    (every : scope.Every holds) {base exit : Nat} {slot : Slot}
    (member : slot ∈ scope.slots base exit) (kept : slot.node.isPlaceholder = false)
    : holds slot.line slot.node := by
  cases scope with
  | beat shown line rest =>
      rcases List.mem_cons.mp member with rfl | later
      · exact every.1
      · exact Scope.Every.of_mem_slots every.2 later kept
  | block line branches rest =>
      rw [Scope.slots, List.cons_append, List.mem_cons, List.mem_append] at member
      rcases member with rfl | inside | later
      · exact every.1
      · exact Branches.Every.of_mem_slots every.2.1 inside kept
      · exact Scope.Every.of_mem_slots every.2.2 later kept
  | ended line =>
      obtain rfl := List.mem_singleton.mp member
      exact every
  | dead line | runsOut line | unfilled =>
      obtain rfl := List.mem_singleton.mp member
      cases kept

/-- The slots of branches that are not placeholders are their parts, by induction on the outline. -/
theorem Branches.Every.of_mem_slots {holds : Nat → Node → Prop} {branches : Branches}
    (every : branches.Every holds) {base exit : Nat} {slot : Slot}
    (member : slot ∈ branches.slots base exit) (kept : slot.node.isPlaceholder = false)
    : holds slot.line slot.node := by
  cases branches with
  | nil => cases member
  | cons guard body rest =>
      rcases List.mem_append.mp member with inBody | inRest
      · exact Scope.Every.of_mem_slots every.1 inBody kept
      · exact Branches.Every.of_mem_slots every.2 inRest kept

end

theorem Block.guards_branchesUpTo (close : Nat) (labels : List Label)
    : (branchesUpTo close labels).map Branch.guard = labels.map Label.guard := by
  induction labels with
  | nil => rfl
  | cons label rest ih => simp [branchesUpTo, ih]

-----------------------------------------------------------------------------------------
-- What is read is stated
-----------------------------------------------------------------------------------------

namespace Line

/-- Some line of this number states the node. -/
def Stated (lines : List Line) (declared : List String) (number : Nat) (node : Node) : Prop :=
  ∃ index line,
    lines[index]? = some line ∧ line.number = number ∧ States lines declared index line node

mutual

/-- Every part of a scope that is read is stated by its line, by induction on the rules. -/
theorem Reads.every {lines : List Line} {declared : List String}
    : ∀ {stop cursor : Nat} {known : List String} {reading : Reading},
        Reads lines declared stop cursor known reading
        → reading.scope.Every (Stated lines declared)
  | _, _, _, _, .runsOut _ => trivial
  | _, _, _, _, .silent _ _ _ rest => rest.every
  | _, _, _, _, .ended here means =>
      ⟨_, _, (of_before? here).2, rfl,
        .ending (tells_of_statement means fun _ => Statement.noConfusion)⟩
  | _, _, _, _, .dead _ _ => trivial
  | _, _, _, _, .beat here means shows rest => by
      have tells := tells_of_statement means fun _ label => by
        subst label
        cases shows
      exact ⟨⟨_, _, (of_before? here).2, rfl, .beat tells shows⟩, rest.every⟩
  | _, _, _, _, .option here means found rest => by
      obtain ⟨closes, rfl⟩ := choicesFrom_eq_some_iff.mp (choicesFrom_of_readOption found)
      have tells := tells_of_statement means fun _ => Statement.noConfusion
      exact ⟨⟨_, _, (of_before? here).2, rfl, .option tells closes⟩, rest.every⟩
  | _, _, _, _, .choices here means found bodies rest => by
      have tells := tells_of_statement means fun _ => Statement.noConfusion
      refine ⟨⟨_, _, (of_before? here).2, rfl, ?_⟩, bodies.every, rest.every⟩
      rw [bodies.proper.1, Block.branches, Block.guards_branchesUpTo]
      exact .choices tells found

/-- Every part of branches that are read is stated by its line, by induction on the rules. -/
theorem ReadsBranches.every {lines : List Line} {declared : List String}
    : ∀ {branches : List Branch} {known later : List String} {result : Branches},
        ReadsBranches lines declared branches known result later
        → result.Every (Stated lines declared)
  | _, _, _, _, .nil => trivial
  | _, _, _, _, .cons body tail => ⟨body.every, tail.every⟩

end

/-- Decoded lines come from the texts at their indices, by induction on the texts. -/
theorem decode_of_decodeAll {texts : List (Nat × String)} {lines : List Line} {index : Nat}
    {line : Line} (decoded : decodeAll texts = .ok lines) (here : lines[index]? = some line)
    : ∃ entry, texts[index]? = some entry ∧ decode entry.1 entry.2 = .ok line := by
  induction texts generalizing lines index with
  | nil =>
      obtain rfl := Except.ok.inj decoded
      simp at here
  | cons entry rest ih =>
      obtain ⟨first, others, decodedFirst, decodedRest, rfl⟩ := decodeAll_cons.mp decoded
      cases index with
      | zero =>
          obtain rfl := Option.some.inj here
          exact ⟨entry, rfl, decodedFirst⟩
      | succ index => exact ih decodedRest here

end Line

-----------------------------------------------------------------------------------------
-- Slots that come from the source
-----------------------------------------------------------------------------------------

/-- Whether the slot comes from a line: it is neither the start nor a placeholder, nor the ending
that is shown behind the last line.
-/
def Slot.isSourced (slot : Slot) : Bool :=
  match slot.node with
  | .start | .dead | .empty => false
  | .ending => slot.line ≠ 0
  | .beat _ | .choice _ => true

/-- The numbers of the slots that come from lines, in order. -/
def Graph.sourced (graph : Graph) : List Nat :=
  graph.ids.filter fun id => (graph.slot id).isSourced

theorem Slot.kept_of_isSourced {slot : Slot} (sourced : slot.isSourced = true)
    : slot.node.isPlaceholder = false
      ∧ slot.node ≠ .start
      ∧ (slot.node = .ending → slot.line ≠ 0) := by
  obtain ⟨node, line, next⟩ := slot
  cases node <;> simp_all [isSourced, Node.isPlaceholder]

theorem Graph.mem_sourced_iff {graph : Graph} {id : Nat}
    : id ∈ graph.sourced ↔ (graph.slot id).isSourced = true := by
  refine ⟨fun member => (List.mem_filter.mp member).2, fun fromLine => ?_⟩
  have inside := lt_size_of_not_placeholder (Slot.kept_of_isSourced fromLine).1
  exact List.mem_filter.mpr ⟨List.mem_range.mpr inside, fromLine⟩

theorem Graph.mem_sourced_of_node {graph : Graph} {id : Nat}
    (shows : (∃ shown, graph.node id = .beat shown) ∨ ∃ guards, graph.node id = .choice guards)
    : id ∈ graph.sourced := by
  unfold Graph.node at shows
  rw [mem_sourced_iff, Slot.isSourced]
  rcases shows with ⟨shown, found⟩ | ⟨guards, found⟩ <;> rw [found]

theorem Graph.sourced_splice (graph : Graph) : graph.splice.sourced = graph.sourced := by
  have same : ∀ id, (graph.splice.slot id).isSourced = (graph.slot id).isSourced := by
    intro id
    rw [slot_splice]
    split <;> rfl
  simp [sourced, ids, same]

/-- The slots of a layout that come from lines are parts of its scope. -/
theorem Scope.Every.of_mem_sourced {holds : Nat → Node → Prop} {scope : Scope}
    (every : scope.Every holds) {id : Nat} (sourced : id ∈ scope.layout.sourced)
    : holds (scope.layout.line id) (scope.layout.node id) := by
  obtain ⟨inside, fromLine⟩ := List.mem_filter.mp sourced
  obtain ⟨kept, startNot, lined⟩ := Slot.kept_of_isSourced fromLine
  have member : scope.layout.slot id ∈ scope.layout.slots := by
    rw [Graph.slot_of_getElem? (List.getElem?_eq_getElem (List.mem_range.mp inside))]
    exact List.getElem_mem _
  show holds (scope.layout.slot id).line (scope.layout.slot id).node
  generalize scope.layout.slot id = slot at *
  unfold layout at member
  rw [List.cons_append, List.mem_cons, List.mem_append] at member
  rcases member with rfl | inScope | behind
  · exact absurd rfl startNot
  · exact every.of_mem_slots inScope kept
  · split at behind
    · obtain rfl := List.mem_singleton.mp behind
      exact absurd rfl (lined rfl)
    · cases behind

/-- The outline of a script has the parts that its lines state. -/
theorem Line.Outlines.stated {lines : List Line} {scope : Scope} (outlines : Outlines lines scope)
    : ∃ declared,
        optionNames lines = .ok declared
        ∧ ∀ id ∈ scope.layout.sourced,
            Stated lines declared (scope.layout.line id) (scope.layout.node id) := by
  obtain ⟨-, names, reads⟩ := outlines
  exact ⟨_, names, fun id sourced => (Scope.every_settle reads.every false).of_mem_sourced sourced⟩

/-- The options that lines open are the names that some line opens a block for. -/
theorem Line.mem_iff_of_optionNames {lines : List Line} {names : List String}
    (found : optionNames lines = .ok names) {name : String}
    : name ∈ names ↔ ∃ line ∈ lines, line.Heads name := by
  obtain ⟨statements, mapped, same⟩ := bind_eq_ok_iff.mp found
  obtain rfl := Except.ok.inj same
  refine List.mem_filterMap.trans ⟨?_, ?_⟩
  · rintro ⟨statement, member, same⟩
    obtain rfl : statement = .option name := by cases statement <;> simp_all
    obtain ⟨line, opens, means⟩ := (mem_iff_of_mapM_eq_ok mapped).mp member
    cases plainStatement_eq_ok_iff.mp means with
    | option heads => exact ⟨line, (List.mem_filter.mp opens).1, heads⟩
  · rintro ⟨line, member, heads⟩
    have opens : line ∈ lines.filter fun line => line.first? = some "option" :=
      List.mem_filter.mpr ⟨member, decide_eq_true heads.first?⟩
    have means := plainStatement_eq_ok_iff.mpr (.option heads)
    exact ⟨.option name, (mem_iff_of_mapM_eq_ok mapped).mpr ⟨line, opens, means⟩, rfl⟩

/-- In a graph that is compiled from lines, the slots that come from lines are what these state. -/
theorem Line.stated_of_compile {lines : List Line} {graph : Graph}
    (compiled : (compile lines).outcome = .ok graph)
    : ∃ declared,
        optionNames lines = .ok declared
        ∧ ∀ id ∈ graph.sourced, Stated lines declared (graph.line id) (graph.node id) := by
  obtain ⟨scope, outlines, rfl⟩ := compile_eq_ok_iff.mp compiled
  obtain ⟨declared, names, stated⟩ := outlines.stated
  refine ⟨declared, names, fun id sourced => ?_⟩
  rw [Graph.line_splice, Graph.node_splice]
  exact stated id (Graph.sourced_splice _ ▸ sourced)

/-- The same holds where the lines are given as texts. -/
theorem Script.stated_of_compile {texts : List String} {graph : Graph}
    (h : (compile texts).outcome = .ok graph)
    : ∃ lines declared,
        Line.decodeAll (((texts.map trimmed).zipIdx 1).map Prod.swap) = .ok lines
        ∧ Line.Numbered lines
        ∧ Line.optionNames lines = .ok declared
        ∧ ∀ id ∈ graph.sourced, Line.Stated lines declared (graph.line id) (graph.node id) := by
  obtain ⟨lines, decoded, compiled⟩ := compile_eq_ok_iff.mp h
  obtain ⟨declared, names, stated⟩ := Line.stated_of_compile compiled
  exact ⟨lines, declared, decoded, numbered_lines decoded, names, stated⟩

/-- The guards of a stated choice ask for declared options. -/
theorem Line.States.option_mem {lines : List Line} {declared : List String} {index : Nat}
    {line : Line} {guards : List Guard}
    (states : States lines declared index line (.choice guards))
    : ∀ guard ∈ guards, guard.option ∈ declared := by
  cases states with
  | choices _ found => exact List.forall_mem_map.mpr (option_mem_of_scanBlock found)

/-- Where slots are what lines state, the guards of choices ask for declared options. -/
theorem Graph.option_mem_of_stated {graph : Graph} {lines : List Line} {declared : List String}
    (stated : ∀ id ∈ graph.sourced, Line.Stated lines declared (graph.line id) (graph.node id))
    {id : Nat} {guards : List Guard} (found : graph.node id = .choice guards)
    : ∀ guard ∈ guards, guard.option ∈ declared := by
  obtain ⟨index, line, -, -, states⟩ := stated id (mem_sourced_of_node (Or.inr ⟨guards, found⟩))
  rw [found] at states
  exact states.option_mem

/-- Of two slots that come from lines, the one that is laid out later comes from a later line. -/
theorem Script.Compiled.line_lt_of_sourced {graph : Graph} (compiled : Script.Compiled graph)
    {low high : Nat} (lowSourced : low ∈ graph.sourced) (highSourced : high ∈ graph.sourced)
    (lt : low < high)
    : graph.line low < graph.line high := by
  obtain ⟨keptLow, startNot, -⟩ := Slot.kept_of_isSourced (List.mem_filter.mp lowSourced).2
  obtain ⟨keptHigh, -, lined⟩ := Slot.kept_of_isSourced (List.mem_filter.mp highSourced).2
  have afterRoot : graph.root < low := by
    rw [compiled.root_eq]
    refine Nat.pos_of_ne_zero ?_
    rintro rfl
    exact startNot (compiled.root_eq ▸ compiled.start)
  rcases compiled.line_lt_line afterRoot lt keptLow keptHigh with before | ⟨ending, unlined, -⟩
  · exact before
  · exact absurd unlined (lined ending)

/-- The slots that come from lines come from later and later ones. -/
theorem Script.Compiled.pairwise_sourced {graph : Graph} (compiled : Script.Compiled graph)
    : (graph.sourced.map graph.line).Pairwise (· < ·) := by
  have ordered : graph.sourced.Pairwise (· < ·) := List.pairwise_lt_range.filter _
  exact List.pairwise_map.mpr (ordered.imp_of_mem compiled.line_lt_of_sourced)

/-- The start of a compiled graph comes from no line. -/
theorem Script.Compiled.line_root {graph : Graph} (compiled : Script.Compiled graph)
    : graph.line graph.root = 0 := by
  obtain ⟨lines, scope, -, outlines, rfl⟩ := compiled.exists_lines
  rw [Graph.root_splice, Graph.line_splice]
  rfl

/-- Slots of a compiled graph that are not placeholders are the same if they come from the same
line.
-/
theorem Script.Compiled.eq_of_line_eq {graph : Graph} (compiled : Script.Compiled graph)
    {left right : Nat} (keptLeft : (graph.node left).isPlaceholder = false)
    (keptRight : (graph.node right).isPlaceholder = false)
    (same : graph.line left = graph.line right) (lined : graph.line left ≠ 0)
    : left = right := by
  have afterRoot : ∀ {id}, graph.line id ≠ 0 → graph.root < id := by
    intro id lined
    rw [compiled.root_eq]
    refine Nat.pos_of_ne_zero ?_
    rintro rfl
    exact lined (compiled.root_eq ▸ compiled.line_root)
  rcases Nat.lt_trichotomy left right with before | equal | after
  · rcases compiled.line_lt_line (afterRoot lined) before keptLeft keptRight with
      lt | ⟨-, unlined, -⟩ <;> omega
  · exact equal
  · rcases compiled.line_lt_line (afterRoot (same ▸ lined)) after keptRight keptLeft with
      lt | ⟨-, unlined, -⟩ <;> omega

-----------------------------------------------------------------------------------------
-- Main statement
-----------------------------------------------------------------------------------------

/-- In a graph that is compiled from lines, the slots that come from lines come from later and later
ones, and each of them is the one node that its line states once it is decoded.
-/
theorem Script.compile_faithful {texts : List String} {graph : Graph}
    (h : (compile texts).outcome = .ok graph)
    : (graph.sourced.map graph.line).Pairwise (· < ·)
      ∧ ∃ lines declared,
          Line.decodeAll (((texts.map trimmed).zipIdx 1).map Prod.swap) = .ok lines
          ∧ Line.optionNames lines = .ok declared
          ∧ ∀ id ∈ graph.sourced,
              ∃ index text line,
                graph.line id = index + 1
                ∧ texts[index]? = some text
                ∧ Line.decode (index + 1) (trimmed text) = .ok line
                ∧ lines[index]? = some line
                ∧ ∀ node, Line.States lines declared index line node ↔ node = graph.node id := by
  refine ⟨(Compiled.lines h).pairwise_sourced, ?_⟩
  obtain ⟨lines, decoded, compiled⟩ := compile_eq_ok_iff.mp h
  obtain ⟨scope, outlines, rfl⟩ := Line.compile_eq_ok_iff.mp compiled
  obtain ⟨declared, names, stated⟩ := outlines.stated
  refine ⟨lines, declared, decoded, names, fun id sourced => ?_⟩
  rw [Graph.sourced_splice] at sourced
  obtain ⟨index, line, here, number, states⟩ := stated id sourced
  obtain ⟨entry, there, decodes⟩ := Line.decode_of_decodeAll decoded here
  obtain ⟨text, given, rfl⟩
      : ∃ text, texts[index]? = some text ∧ (index + 1, trimmed text) = entry := by
    simpa [List.getElem?_zipIdx, Nat.add_comm] using there
  rw [Graph.line_splice, Graph.node_splice]
  refine ⟨index, text, line, ?_, given, decodes, here, fun node => ?_⟩
  · rw [← number, Line.number_of_decode decodes]
  · constructor
    · intro other
      exact other.unique states
    · rintro rfl
      exact states

/-- Four of the slots of the script with two ways come from lines, among them the option with the
choices on the two lines below its own.
-/
theorem Script.crossroads_faithful
    : (compile crossroads).outcome = .ok crossroadsGraph
      ∧ crossroadsGraph.sourced.map (fun id => (id, crossroadsGraph.line id))
          = [(1, 1), (2, 5), (4, 9), (6, 11)]
      ∧ ∃ lines declared line,
          Line.decode 1 (trimmed "<option>pick") = .ok line
          ∧ Line.States lines declared 0 line (.beat (.option "pick" ["A", "B"])) := by
  refine ⟨compile_crossroads, by decide +kernel, ?_⟩
  obtain ⟨-, lines, declared, -, -, states⟩ := compile_faithful compile_crossroads
  obtain ⟨index, text, line, number, given, decodes, -, stated⟩ := states 1 (by decide +kernel)
  obtain rfl : index = 0 := Nat.succ.inj number.symm
  obtain rfl : "<option>pick" = text := Option.some.inj given
  exact ⟨lines, declared, line, decodes, (stated _).mpr rfl⟩

end Dialogue
