import Dialogue.Proofs.Text.Numerals
import Dialogue.Proofs.Text.Trimming
import Dialogue.Script.Statement

/-! Labels, told from the tags of a line: two tags, or one that a comma divides, name an option and
give a threshold for it.
-/

namespace Dialogue.Line

variable {line : Line} {names : List String} {name threshold : String}

/-- The line has the shape of a label with this name and this threshold text. -/
def LabelShaped (line : Line) (name threshold : String) : Prop :=
  line.tags = [name, threshold]
  ∨ ∃ tag before after,
      line.tags = [tag]
      ∧ tag.toList = before ++ ',' :: after
      ∧ ',' ∉ before
      ∧ name = String.ofList (Text.trim before)
      ∧ threshold = String.ofList (Text.trim after)

/-- The text denotes a number that a threshold can be. -/
def IsThreshold (text : String) (number : Nat) : Prop :=
  Text.Denotes text.toList number ∧ number ≤ maxThreshold

/-- The parts of a label are those of its shape, by cases on the tags. -/
theorem labelShape?_eq_some_iff
    : line.labelShape? = some (name, threshold) ↔ line.LabelShaped name threshold := by
  unfold labelShape? LabelShaped
  split
  · next first second tags => simp [tags, eq_comm]
  · next only tags =>
      rw [Option.map_eq_some_iff]
      constructor
      · rintro ⟨⟨before, after⟩, divided, parts⟩
        obtain ⟨undivided, shape⟩ := Text.of_cut divided
        obtain ⟨rfl, rfl⟩ := Prod.mk.inj parts
        exact Or.inr ⟨only, before, after, tags, shape, undivided, rfl, rfl⟩
      · rintro (pair | ⟨tag, before, after, same, shape, undivided, rfl, rfl⟩)
        · simp [tags] at pair
        · obtain rfl := List.singleton_inj.mp (tags.symm.trans same)
          exact ⟨(before, after), by rw [shape, Text.cut_append undivided], rfl⟩
  · next pairNot singleNot =>
      refine iff_of_false (by simp) ?_
      rintro (pair | ⟨tag, _, _, single, -⟩)
      · exact pairNot _ _ pair
      · exact singleNot _ single

/-- A line in the shape of a label is no closing tag, which has a single tag without a comma. -/
theorem LabelShaped.isTerminator (shaped : line.LabelShaped name threshold)
    : line.isTerminator = false := by
  refine Bool.eq_false_iff.mpr fun closes => ?_
  have tags : line.tags = ["/"] := of_decide_eq_true closes
  rcases shaped with pair | ⟨tag, before, after, single, parts, -⟩
  · simp [tags] at pair
  · obtain rfl := List.singleton_inj.mp (tags.symm.trans single)
    have comma : ',' ∈ "/".toList := by simp [parts]
    simp at comma

/-- A line is a label for one of some options if its shape names one, other than the tag that opens
option blocks.
-/
theorem labelParts?_eq_some_iff
    : line.labelParts? names = some (name, threshold)
      ↔ line.LabelShaped name threshold ∧ name ≠ "option" ∧ name ∈ names := by
  rw [labelParts?, Option.filter_eq_some_iff, labelShape?_eq_some_iff]
  simp

theorem threshold?_eq_some_iff {text : String} {number : Nat}
    : threshold? text = some number ↔ IsThreshold text number := by
  rw [threshold?, IsThreshold, ← Text.readNumeral_eq_ok_iff]
  cases Text.readNumeral maxThreshold text.toList <;> simp [Except.toOption]

-----------------------------------------------------------------------------------------
-- Guards
-----------------------------------------------------------------------------------------

/-- A line states no guard if its shape names none of the options. -/
theorem guard_eq_none_iff
    : line.guard names = .ok none
      ↔ ∀ name threshold, line.LabelShaped name threshold → name ≠ "option" → name ∉ names := by
  have noParts
      : line.labelParts? names = none
        ↔ ∀ name threshold, line.LabelShaped name threshold → name ≠ "option" → name ∉ names := by
    rw [Option.eq_none_iff_forall_ne_some, Prod.forall]
    simp only [ne_eq, labelParts?_eq_some_iff, not_and]
  rw [← noParts, guard]
  split
  · next none => simp [none]
  · next option text parts => cases threshold? text <;> simp [parts]

/-- A line states the guard that its shape names, if the text of its threshold is a number. -/
theorem guard_eq_some_iff {guard : Guard}
    : line.guard names = .ok (some guard)
      ↔ ∃ text,
          line.LabelShaped guard.option text
          ∧ guard.option ≠ "option"
          ∧ guard.option ∈ names
          ∧ IsThreshold text guard.threshold := by
  constructor
  · intro states
    unfold Line.guard at states
    split at states
    · cases states
    · next option text parts =>
        split at states
        · next number denotes =>
            obtain rfl := Option.some.inj (Except.ok.inj states)
            obtain ⟨shaped, free, member⟩ := labelParts?_eq_some_iff.mp parts
            exact ⟨text, shaped, free, member, threshold?_eq_some_iff.mp denotes⟩
        · cases states
  · rintro ⟨text, shaped, free, member, denotes⟩
    rw [Line.guard, labelParts?_eq_some_iff.mpr ⟨shaped, free, member⟩]
    simp only [threshold?_eq_some_iff.mpr denotes]

/-- The line has the shape of a label for one of these options, with a number for its threshold. -/
def StatesGuard (line : Line) (names : List String) (guard : Guard) : Prop :=
  ∃ text,
    line.LabelShaped guard.option text
    ∧ guard.option ≠ "option"
    ∧ guard.option ∈ names
    ∧ IsThreshold text guard.threshold

/-- A line is a label with a number exactly if it states a guard. -/
theorem branch?_eq_some_iff {guard : Guard}
    : line.branch? names = some guard ↔ line.StatesGuard names guard := by
  simp only [branch?, Option.bind_eq_some_iff, Option.map_eq_some_iff, Prod.exists,
    labelParts?_eq_some_iff, threshold?_eq_some_iff, StatesGuard]
  constructor
  · intro ⟨option, text, ⟨shaped, free, member⟩, number, denotes, same⟩
    obtain rfl := same
    exact ⟨text, shaped, free, member, denotes⟩
  · intro ⟨text, shaped, free, member, denotes⟩
    exact ⟨guard.option, text, ⟨shaped, free, member⟩, guard.threshold, denotes, rfl⟩

/-- The guard of a line is at fault if its shape names an option and the text of its threshold is no
number.
-/
theorem guard_eq_error_iff {error : ScriptError}
    : line.guard names = .error error
      ↔ ∃ name text,
          line.LabelShaped name text
          ∧ name ≠ "option"
          ∧ name ∈ names
          ∧ (∀ number, ¬ IsThreshold text number)
          ∧ error = .invalidThreshold line.number name text := by
  constructor
  · intro failed
    unfold guard at failed
    split at failed
    · cases failed
    · next option text parts =>
        split at failed
        · cases failed
        · next noNumber =>
            obtain rfl := Except.error.inj failed
            obtain ⟨shaped, free, member⟩ := labelParts?_eq_some_iff.mp parts
            refine ⟨option, text, shaped, free, member, fun number denotes => ?_, rfl⟩
            cases noNumber.symm.trans (threshold?_eq_some_iff.mpr denotes)
  · rintro ⟨name, text, shaped, free, member, noNumber, rfl⟩
    have none : threshold? text = none :=
      Option.eq_none_iff_forall_ne_some.mpr fun number found =>
        noNumber number (threshold?_eq_some_iff.mp found)
    rw [guard, labelParts?_eq_some_iff.mpr ⟨shaped, free, member⟩]
    simp only [none]

end Dialogue.Line
