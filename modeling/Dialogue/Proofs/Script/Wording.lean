import Dialogue.Proofs.Script.Passage
import Dialogue.Proofs.Text.Numerals
import Dialogue.Script.Reading

/-! What the rows of a legible tree say, and that they can be decoded. -/

namespace Dialogue

namespace Line

/-- The line is no label for any of the names, and it says this by itself. -/
structure Means (names : List String) (line : Line) (statement : Statement) : Prop where
  unlabelled : line.labelParts? names = none
  plain : line.plainStatement = .ok statement

/-- A sole tag is no label if what stands in front of its first comma is none of the names. -/
theorem labelParts?_single {names : List String} {number : Nat} {tag content : String}
    (unnamed : ∀ parts, Text.cut ',' tag.toList = some parts
      → String.ofList (Text.trim parts.1) ∉ names)
    : (Line.mk number [tag] content).labelParts? names = none := by
  unfold labelParts? labelShape?
  rw [Option.filter_eq_none_iff]
  intro parts found
  obtain ⟨halves, cut, rfl⟩ := Option.map_eq_some_iff.mp found
  simpa using fun _ => unnamed halves cut

/-- Two tags are no label if the first one is none of the names, or the one that opens option
blocks.
-/
theorem labelParts?_pair {names : List String} {number : Nat} {first second content : String}
    (unnamed : first = "option" ∨ first ∉ names)
    : (Line.mk number [first, second] content).labelParts? names = none := by
  unfold labelParts? labelShape?
  rw [Option.filter_some]
  apply if_neg
  simpa [imp_iff_not_or] using unnamed

/-- What a line says by itself, it says where only some of the names are known. -/
theorem Means.statement {names known : List String} {line : Line} {statement : Statement}
    (means : line.Means names statement) (subset : known ⊆ names)
    : line.statement known = .ok statement := by
  have unlabelled : line.labelParts? known = none := by
    have none := means.unlabelled
    unfold labelParts? at none ⊢
    rw [Option.filter_eq_none_iff] at none ⊢
    intro parts found named
    simp at named
    exact none parts found (by simpa using ⟨named.1, subset named.2⟩)
  rw [Line.statement, unlabelled]
  exact means.plain

theorem Means.branch? {names : List String} {line : Line} {statement : Statement}
    (means : line.Means names statement)
    : line.branch? names = none := by
  rw [Line.branch?, means.unlabelled, Option.bind_none]

/-- A sole tag without a comma is no label, whatever it says. -/
theorem means_single {names : List String} {tag : String} {statement : Statement} {line : Line}
    (undivided : ',' ∉ tag.toList) (holds : line.row = ⟨[tag], ""⟩)
    (plain : ∀ number, (Line.mk number [tag] "").plainStatement = .ok statement)
    : line.Means names statement := by
  obtain ⟨number, tags, content⟩ := line
  obtain ⟨rfl, rfl⟩ := Row.mk.inj holds
  refine ⟨labelParts?_single fun parts cut => ?_, plain number⟩
  rw [Text.cut_eq_none_iff.mpr undivided] at cut
  cases cut

/-- A block scan passes over the line. -/
structure Passed (names : List String) (line : Line) : Prop where
  opensNot : line.isOpening = false
  closesNot : line.isTerminator = false
  labelsNot : line.branch? names = none

end Line

-----------------------------------------------------------------------------------------
-- Remarks
-----------------------------------------------------------------------------------------

namespace Remark

/-- What the first row of a remark says. -/
def statement : Remark → Statement
  | .scene content => .scene content
  | .say speaker content => .say speaker content
  | .think speaker _ content => .think speaker content
  | .option _ name _ _ => .option name

/-- The first row of a legible remark says what it is meant to say, by cases on the remark. -/
theorem means_header {names : List String} {remark : Remark} (legible : remark.Legible names)
    {line : Line} (holds : line.row = remark.header)
    : line.Means names remark.statement := by
  obtain ⟨number, tags, content⟩ := line
  cases remark with
  | scene text =>
      obtain ⟨rfl, rfl⟩ := Row.mk.inj holds
      exact ⟨Line.labelParts?_single (fun _ cut => by cases cut), rfl⟩
  | say speaker text =>
      obtain ⟨rfl, rfl⟩ := Row.mk.inj holds
      obtain ⟨-, -, notKeyword, unnamed, -⟩ := legible
      simp [keywords] at notKeyword
      refine ⟨Line.labelParts?_single unnamed, ?_⟩
      unfold Line.plainStatement
      split <;> simp_all [statement]
  | think speaker qualifier text =>
      obtain ⟨rfl, rfl⟩ := Row.mk.inj holds
      obtain ⟨-, -, opensNot, unnamed, -⟩ := legible
      refine ⟨Line.labelParts?_pair (Or.inr unnamed), ?_⟩
      unfold Line.plainStatement
      split <;> simp_all [statement]
  | option form name first others =>
      cases form with
      | joined =>
          obtain ⟨rfl, rfl⟩ := Row.mk.inj holds
          refine ⟨Line.labelParts?_single (fun _ cut => by cases cut), ?_⟩
          simp [Line.plainStatement, statement, legible.1.filled]
      | paired =>
          obtain ⟨rfl, rfl⟩ := Row.mk.inj holds
          exact ⟨Line.labelParts?_pair (Or.inl rfl), rfl⟩

/-- A block scan passes over the row of a remark that is no option. -/
theorem passed_header {names : List String} {remark : Remark} (legible : remark.Legible names)
    (single : remark.names = []) {line : Line} (holds : line.row = remark.header)
    : line.Passed names := by
  have shape : line.isOpening = false ∧ line.isTerminator = false := by
    obtain ⟨number, tags, content⟩ := line
    cases remark with
    | option form name first others => cases single
    | scene text =>
        obtain ⟨rfl, rfl⟩ := Row.mk.inj holds
        exact ⟨rfl, rfl⟩
    | say speaker text =>
        obtain ⟨rfl, rfl⟩ := Row.mk.inj holds
        have notKeyword := legible.2.2.1
        simp [keywords] at notKeyword
        simp [Line.isOpening, Line.isTerminator, Line.first?, notKeyword]
    | think speaker qualifier text =>
        obtain ⟨rfl, rfl⟩ := Row.mk.inj holds
        simp [Line.isOpening, Line.isTerminator, Line.first?, legible.2.2.1]
  exact ⟨shape.1, shape.2, (means_header legible holds).branch?⟩

end Remark

-----------------------------------------------------------------------------------------
-- Labels
-----------------------------------------------------------------------------------------

namespace Cue

/-- The row of a legible label has the parts of its guard, whichever form it is written in. -/
theorem labelParts?_row {names : List String} (nameable : ∀ name ∈ names, LegibleName name)
    {cue : Cue} (legible : cue.Legible names) {line : Line} (holds : line.row = cue.row)
    : line.labelParts? names = some (cue.guard.option, toString cue.guard.threshold) := by
  obtain ⟨number, tags, content⟩ := line
  obtain ⟨form, name, threshold⟩ := cue
  have named := nameable name legible.1
  have shape : (Line.mk number tags content).labelShape? = some (name, toString threshold) := by
    cases form with
    | joined =>
        obtain ⟨rfl, rfl⟩ := Row.mk.inj holds
        have trimmedName : Text.trim name.toList = name.toList := named.plain.1
        have trimmedNumeral : Text.trim (toString threshold).toList = (toString threshold).toList :=
          Text.trimmed_toString threshold
        have cut : Text.cut ',' (Guard.render ⟨name, threshold⟩).toList
            = some (name.toList, (toString threshold).toList) := by
          rw [Guard.toList_render]
          exact Text.cut_append named.undivided
        simp only [Line.labelShape?, cut, Option.map_some, trimmedName, trimmedNumeral,
          String.ofList_toList]
    | paired =>
        obtain ⟨rfl, rfl⟩ := Row.mk.inj holds
        rfl
  unfold Line.labelParts?
  rw [shape, Option.filter_some]
  apply if_pos
  simpa using ⟨named.opensNot.1, legible.1⟩

/-- The row of a legible label gives its guard. -/
theorem guard_row {names : List String} (nameable : ∀ name ∈ names, LegibleName name)
    {cue : Cue} (legible : cue.Legible names) {line : Line} (holds : line.row = cue.row)
    : line.guard names = .ok (some cue.guard) ∧ line.branch? names = some cue.guard := by
  have parts := labelParts?_row nameable legible holds
  have threshold : Line.threshold? (toString cue.guard.threshold) = some cue.guard.threshold := by
    rw [Line.threshold?, Text.readNumeral_toString legible.2]
    rfl
  constructor
  · simp only [Line.guard, parts, threshold]
  · simp only [Line.branch?, parts, threshold, Option.bind_some, Option.map_some]

/-- The row of a legible label neither opens nor closes a block. -/
theorem isOpening_row {names : List String} (nameable : ∀ name ∈ names, LegibleName name)
    {cue : Cue} (legible : cue.Legible names) {line : Line} (holds : line.row = cue.row)
    : line.isOpening = false ∧ line.isTerminator = false := by
  obtain ⟨number, tags, content⟩ := line
  obtain ⟨form, name, threshold⟩ := cue
  have named := nameable name legible.1
  cases form with
  | joined =>
      obtain ⟨rfl, rfl⟩ := Row.mk.inj holds
      have divided : ',' ∈ (Guard.render ⟨name, threshold⟩).toList := by simp [Guard.render]
      have different (tag : String) (undivided : ',' ∉ tag.toList)
          : Guard.render ⟨name, threshold⟩ ≠ tag := by
        rintro rfl
        exact undivided divided
      simp [Line.isOpening, Line.isTerminator, Line.first?, different]
  | paired =>
      obtain ⟨rfl, rfl⟩ := Row.mk.inj holds
      simp [Line.isOpening, Line.isTerminator, Line.first?, named.opensNot]

end Cue

end Dialogue
