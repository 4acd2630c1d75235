import Dialogue.Proofs.Script.Faults

/-! What a line is taken for where different options are known. The scope that a line stands in asks
what it says, and a block asks for its guard; both look at the same two parts of the line, so they
take it for a label of the same option, and further options make further lines labels but change
nothing else.
-/

namespace Dialogue.Line

section Labels

variable {line : Line} {names more : List String} {option text : String}

-----------------------------------------------------------------------------------------
-- Labels among statements
-----------------------------------------------------------------------------------------

/-- What a line says is a label exactly if it has the parts of one. -/
theorem statement_eq_label_iff
    : line.statement names = .ok (.label option)
      ↔ ∃ text, line.labelParts? names = some (option, text) := by
  unfold statement
  split
  · next found text parts => simp [parts]
  · next none =>
      refine iff_of_false (fun plain => ?_) (by simp [none])
      -- no tags make a line a label by themselves
      cases plainStatement_eq_ok_iff.mp plain

theorem statement_of_labelParts? (parts : line.labelParts? names = some (option, text))
    : line.statement names = .ok (.label option) :=
  statement_eq_label_iff.mpr ⟨text, parts⟩

theorem statement_of_not_label (none : line.labelParts? names = none)
    : line.statement names = line.plainStatement := by
  rw [statement, none]

theorem guard_of_not_label (none : line.labelParts? names = none)
    : line.guard names = .ok Option.none := by
  rw [Line.guard, none]

theorem guard_of_labelParts? (parts : line.labelParts? names = some (option, text))
    : line.guard names
        = match line.branch? names with
          | some guard => .ok (some guard)
          | none => .error (.invalidThreshold line.number option text) := by
  simp only [Line.guard, branch?, parts, Option.bind_some]
  cases threshold? text <;> rfl

/-- The parts of a label stay its parts where more options are known. -/
theorem labelParts?_of_subset (larger : names ⊆ more)
    (parts : line.labelParts? names = some (option, text))
    : line.labelParts? more = some (option, text) := by
  obtain ⟨shaped, free, member⟩ := labelParts?_eq_some_iff.mp parts
  exact labelParts?_eq_some_iff.mpr ⟨shaped, free, larger member⟩

-----------------------------------------------------------------------------------------
-- Lines that are no labels
-----------------------------------------------------------------------------------------

/-- The line is the header of an option block, or its only tag opens a choices block or closes
something.
-/
def IsMarker (line : Line) : Prop :=
  line.first? = some "option" ∨ line.tags ∈ [["choices"], ["END"], ["//"], ["/"]]

/-- Option headers would be labels for the one option that has no labels, and the other markers have
a single tag without a comma.
-/
theorem IsMarker.labelParts? (marker : line.IsMarker) (names : List String)
    : line.labelParts? names = none := by
  refine Option.eq_none_iff_forall_ne_some.mpr fun ⟨option, text⟩ parts => ?_
  obtain ⟨shaped, free, -⟩ := labelParts?_eq_some_iff.mp parts
  rcases shaped with pair | ⟨tag, before, after, single, split, -⟩
  · rcases marker with header | sole
    · rw [Line.first?, pair] at header
      exact free (Option.some.inj header)
    · simp [pair] at sole
  · have comma : ',' ∈ tag.toList := by simp [split]
    have word : tag ∈ ["option", "choices", "END", "//", "/"] := by
      rcases marker with header | sole
      · rw [Line.first?, single] at header
        simp [Option.some.inj header]
      · rw [single] at sole
        simpa using Or.inr sole
    simp only [List.mem_cons, List.not_mem_nil, or_false] at word
    rcases word with rfl | rfl | rfl | rfl | rfl <;> simp at comma

end Labels

/-- Where the options of a script can be declared, each of its lines says something, whatever
options are known.
-/
theorem exists_statement_of_optionNames {lines : List Line} {declared : List String}
    (few : ∀ line ∈ lines, line.FewTags) (names : optionNames lines = .ok declared)
    : ∀ line ∈ lines, ∀ known, ∃ statement, line.statement known = .ok statement := by
  intro line member known
  cases means : line.statement known with
  | ok statement => exact ⟨statement, rfl⟩
  | error error =>
      have nameless := ((statement_eq_error_iff (few line member)).mp means).1
      exact absurd nameless (not_nameless_of_optionNames few names line member)

-----------------------------------------------------------------------------------------
-- Main statement
-----------------------------------------------------------------------------------------

/-- The three readings of a line agree on whether it is a label, and of which option. -/
structure ReadsAsLabel (line : Line) : Prop where
  /-- It says that it is a label exactly if asking for its guard does not find that it is none. -/
  label
    : ∀ names,
        (∃ option, line.statement names = .ok (.label option)) ↔ line.guard names ≠ .ok none
  /-- It opens a branch exactly if it has a guard, which is then the same. -/
  branch : ∀ names guard, line.branch? names = some guard ↔ line.guard names = .ok (some guard)
  /-- The guard is for the option that the line is a label of. -/
  option
    : ∀ names guard,
        line.guard names = .ok (some guard) → line.statement names = .ok (.label guard.option)
  /-- It has no guard only for its threshold. -/
  fault
    : ∀ names error,
        line.guard names = .error error
        → ∃ option text, error = .invalidThreshold line.number option text
  /-- The threshold is at fault exactly if the line is a label that opens no branch. -/
  threshold
    : ∀ names option,
        (∃ text, line.guard names = .error (.invalidThreshold line.number option text))
        ↔ line.statement names = .ok (.label option) ∧ line.branch? names = none
  /-- Where more options are known it says the same, unless it is a label only there. -/
  grows
    : ∀ names more,
        names ⊆ more
        → line.statement more = line.statement names
          ∨ (∀ option, line.statement names ≠ .ok (.label option))
            ∧ ∃ option, line.statement more = .ok (.label option)
  marker : line.IsMarker → ∀ names option, line.statement names ≠ .ok (.label option)

theorem readsAsLabel (line : Line) : line.ReadsAsLabel where
  label := by
    intro names
    cases parts : line.labelParts? names with
    | none => simp [guard_of_not_label parts, statement_eq_label_iff, parts]
    | some pair =>
        refine iff_of_true ⟨pair.1, statement_of_labelParts? parts⟩ ?_
        rw [guard_of_labelParts? parts]
        cases line.branch? names <;> simp
  branch := by
    intro names guard
    exact branch?_eq_some_iff.trans guard_eq_some_iff.symm
  option := by
    intro names guard found
    obtain ⟨text, shaped, free, member, -⟩ := guard_eq_some_iff.mp found
    exact statement_of_labelParts? (labelParts?_eq_some_iff.mpr ⟨shaped, free, member⟩)
  fault := by
    intro names error failed
    obtain ⟨option, text, -, -, -, -, rfl⟩ := guard_eq_error_iff.mp failed
    exact ⟨option, text, rfl⟩
  threshold := by
    intro names option
    cases parts : line.labelParts? names with
    | none => simp [guard_of_not_label parts, statement_eq_label_iff, parts]
    | some pair =>
        rw [guard_of_labelParts? parts, statement_of_labelParts? parts]
        cases line.branch? names <;> simp [eq_comm]
  grows := by
    intro names more larger
    cases parts : line.labelParts? names with
    | some pair =>
        refine Or.inl ?_
        rw [statement_of_labelParts? parts,
          statement_of_labelParts? (labelParts?_of_subset larger parts)]
    | none =>
        cases partsMore : line.labelParts? more with
        | none =>
            refine Or.inl ?_
            rw [statement_of_not_label parts, statement_of_not_label partsMore]
        | some pair =>
            refine Or.inr ⟨fun option label => ?_, pair.1, statement_of_labelParts? partsMore⟩
            simp [statement_eq_label_iff, parts] at label
  marker := by
    intro marker names option label
    simp [statement_eq_label_iff, marker.labelParts? names] at label

/-- The three readings of every line that was decoded agree, and it never says that it has too many
tags. So once the options of a script have been declared, none of its lines fails to say something,
whatever options are known where it is read.
-/
theorem readings_agree {lines : List Line}
    (decoded : ∀ line ∈ lines, ∃ number text, decode number text = .ok line)
    : (∀ line ∈ lines,
        line.ReadsAsLabel
        ∧ ∀ names number count, line.statement names ≠ .error (.tooManyTags number count))
      ∧ ((∃ declared, optionNames lines = .ok declared)
          → ∀ line ∈ lines, ∀ names, ∃ statement, line.statement names = .ok statement) := by
  have few : ∀ line ∈ lines, line.FewTags := by
    intro line member
    obtain ⟨number, text, decodes⟩ := decoded line member
    exact fewTags_of_decode decodes
  refine ⟨fun line member => ⟨line.readsAsLabel, ?_⟩, ?_⟩
  · intro names number count failed
    obtain ⟨-, other⟩ := (statement_eq_error_iff (few line member)).mp failed
    cases other
  · rintro ⟨declared, names⟩
    exact exists_statement_of_optionNames few names

/-- The lines of an option with one choice, and one that a speaker thinks unless the option is
known.
-/
def angryLines : List Line :=
  [⟨1, ["option"], "pick"⟩, ⟨2, ["a"], "A"⟩, ⟨3, ["/"], ""⟩, ⟨4, ["pick", "angry"], "Well"⟩]

/-- Where the option is known the last line becomes a label, which opens no branch since its
threshold is at fault. All lines say something under other names too.
-/
theorem angry_readings_agree
    : (∀ line ∈ angryLines, ∃ number text, decode number text = .ok line)
      ∧ optionNames angryLines = .ok ["pick"]
      ∧ (∀ names, ∃ statement, (Line.mk 3 ["/"] "").statement names = .ok statement)
      ∧ (Line.mk 4 ["pick", "angry"] "Well").statement [] = .ok (.think "pick" "Well")
      ∧ (∃ option, (Line.mk 4 ["pick", "angry"] "Well").statement ["pick"] = .ok (.label option))
      ∧ (∃ text,
          (Line.mk 4 ["pick", "angry"] "Well").guard ["pick"]
            = .error (.invalidThreshold 4 "pick" text)) := by
  have decoded : ∀ line ∈ angryLines, ∃ number text, decode number text = .ok line := by
    have texts
        : decodeAll [(1, "<option>pick"), (2, "<a>A"), (3, "</>"), (4, "<pick><angry>Well")]
            = .ok angryLines := by
      decide +kernel
    intro line member
    obtain ⟨⟨number, text⟩, -, decodes⟩ := (mem_iff_of_mapM_eq_ok texts).mp member
    exact ⟨number, text, decodes⟩
  have names : optionNames angryLines = .ok ["pick"] := by decide +kernel
  obtain ⟨agree, meant⟩ := readings_agree decoded
  obtain ⟨reads, -⟩ := agree ⟨4, ["pick", "angry"], "Well"⟩ (by simp [angryLines])
  have thinks : (Line.mk 4 ["pick", "angry"] "Well").statement [] = .ok (.think "pick" "Well") := by
    decide +kernel
  have labels
      : ∃ option,
          (Line.mk 4 ["pick", "angry"] "Well").statement ["pick"] = .ok (.label option) := by
    refine (reads.label ["pick"]).mpr ?_
    decide +kernel
  refine ⟨decoded, names, meant ⟨_, names⟩ _ (by simp [angryLines]), thinks, labels, ?_⟩
  refine (reads.threshold ["pick"] "pick").mpr ⟨?_, ?_⟩ <;> decide +kernel

end Dialogue.Line
