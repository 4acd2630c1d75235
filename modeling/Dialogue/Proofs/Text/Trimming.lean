import Mathlib.Data.List.DropRight
import Dialogue.Proofs.Text.Numerals
import Dialogue.Text.Blank
import Dialogue.Text.Split

/-! Texts without blanks around them, and texts divided at a separator. -/

namespace Dialogue.Text

/-- A text is trimmed exactly if neither end of it is blank: what trimming drops makes it shorter.
-/
theorem trimmed_iff {text : List Char}
    : Trimmed text
      ↔ (∀ first, text.head? = some first → isBlank first = false)
        ∧ (∀ last, text.getLast? = some last → isBlank last = false) := by
  have ends
      : (text.dropWhile isBlank = text ∧ text.rdropWhile isBlank = text)
        ↔ (∀ first, text.head? = some first → isBlank first = false)
          ∧ (∀ last, text.getLast? = some last → isBlank last = false) := by
    rw [List.dropWhile_eq_self_iff, List.rdropWhile_eq_self_iff]
    cases text with
    | nil => simp
    | cons c rest => simp [List.getLast?_eq_some_getLast]
  rw [← ends]
  constructor
  · intro trimmed
    have whole : (text.dropWhile isBlank).rdropWhile isBlank = text := trimmed
    have start : text.dropWhile isBlank = text := by
      apply (List.dropWhile_suffix isBlank).eq_of_length_le
      have fewer := (List.rdropWhile_prefix isBlank (text.dropWhile isBlank)).length_le
      rwa [whole] at fewer
    rw [start] at whole
    exact ⟨start, whole⟩
  · rintro ⟨start, stop⟩
    show (text.dropWhile isBlank).rdropWhile isBlank = text
    rw [start, stop]

theorem trimmed_of_forall {text : List Char} (solid : ∀ c ∈ text, isBlank c = false)
    : Trimmed text :=
  trimmed_iff.mpr ⟨fun _ first => solid _ (List.mem_of_mem_head? first),
    fun _ last => solid _ (List.mem_of_getLast? last)⟩

theorem trimmed_toString (number : Nat) : Trimmed (toString number).toList :=
  trimmed_of_forall fun _ member => isBlank_of_isDigit (isDigit_of_mem_toString member)

/-- Trimming takes all blanks away at both ends: what is left is trimmed. -/
theorem trimmed_trim (text : List Char) : Trimmed (trim text) := by
  have whole : trim text = (text.dropWhile isBlank).rdropWhile isBlank := rfl
  refine trimmed_iff.mpr ⟨fun first begins => ?_, fun last ends => ?_⟩
  · obtain ⟨blanks, same⟩ := List.rdropWhile_prefix isBlank (text.dropWhile isBlank)
    have starts : (text.dropWhile isBlank).head? = some first := by
      rw [← same, ← whole, List.head?_append, begins, Option.some_or]
    have filled := List.head?_dropWhile_not isBlank text
    rw [starts] at filled
    simpa using filled
  · rw [whole, List.getLast?_eq_some_iff] at ends
    obtain ⟨others, shape⟩ := ends
    have filled := List.rdropWhile_last_not isBlank (text.dropWhile isBlank) (by simp [shape])
    simpa [shape] using filled

/-- Trimming adds nothing: what is left stood in the text. -/
theorem mem_of_mem_trim {text : List Char} {c : Char} (member : c ∈ trim text) : c ∈ text := by
  have kept : c ∈ (text.dropWhile isBlank).rdropWhile isBlank := member
  exact (List.dropWhile_subset isBlank) ((List.rdropWhile_prefix isBlank _).subset kept)

/-- Whatever stands between two trimmed texts that are not empty, the whole is trimmed. -/
theorem trimmed_around {left right : List Char} (middle : List Char) (trimmedLeft : Trimmed left)
    (trimmedRight : Trimmed right) (filledLeft : left ≠ []) (filledRight : right ≠ [])
    : Trimmed (left ++ middle ++ right) := by
  refine trimmed_iff.mpr ⟨fun first begins => ?_, fun last ends => ?_⟩
  · apply (trimmed_iff.mp trimmedLeft).1
    rwa [List.append_assoc, List.head?_append_of_ne_nil _ filledLeft] at begins
  · apply (trimmed_iff.mp trimmedRight).2
    rwa [List.getLast?_append_of_ne_nil _ filledRight] at ends

-----------------------------------------------------------------------------------------
-- Separators
-----------------------------------------------------------------------------------------

/-- Cutting looks at one character after the other, by cases on whether it separates. -/
theorem cut_cons {separator c : Char} {rest : List Char}
    : cut separator (c :: rest)
      = if c = separator then some ([], rest)
        else (cut separator rest).map fun (before, after) => (c :: before, after) := by
  unfold cut
  by_cases same : c = separator
  · simp [same]
  · rw [if_neg same, List.dropWhile_cons_of_pos (by simpa using same),
      List.takeWhile_cons_of_pos (by simpa using same)]
    cases rest.dropWhile (· ≠ separator) <;> rfl

theorem cut_append {separator : Char} {before after : List Char} (unseparated : separator ∉ before)
    : cut separator (before ++ separator :: after) = some (before, after) := by
  induction before with
  | nil => simp [cut_cons]
  | cons c rest ih =>
      rw [List.mem_cons, not_or] at unseparated
      simp [cut_cons, Ne.symm unseparated.1, ih unseparated.2]

/-- The parts of a text that is cut stand around its first separator, by induction on the text. -/
theorem of_cut {separator : Char} {text before after : List Char}
    (h : cut separator text = some (before, after))
    : separator ∉ before ∧ text = before ++ separator :: after := by
  induction text generalizing before with
  | nil => simp [cut] at h
  | cons c rest ih =>
      rw [cut_cons] at h
      split at h
      · next same =>
          obtain ⟨rfl, rfl⟩ := Prod.mk.inj (Option.some.inj h)
          simp [same]
      · next different =>
          obtain ⟨⟨inner, last⟩, found, pair⟩ := Option.map_eq_some_iff.mp h
          obtain ⟨rfl, rfl⟩ := Prod.mk.inj pair
          obtain ⟨unseparated, rfl⟩ := ih found
          exact ⟨List.not_mem_cons_of_ne_of_not_mem (Ne.symm different) unseparated, rfl⟩

theorem cut_eq_none_iff {separator : Char} {text : List Char}
    : cut separator text = none ↔ separator ∉ text := by
  induction text with
  | nil => simp [cut]
  | cons c rest ih =>
      rw [cut_cons]
      by_cases same : c = separator
      · simp [same]
      · simp [same, ih, Ne.symm same]

/-- What follows the last separator of a text is all that follows a separator and has none. -/
theorem afterLast_append {separator : Char} {before after : List Char}
    (unseparated : separator ∉ after)
    : afterLast separator (before ++ separator :: after) = after := by
  unfold afterLast
  rw [List.reverse_append, List.reverse_cons, List.append_assoc, List.singleton_append,
    List.takeWhile_append_of_pos, List.takeWhile_cons_of_neg (by simp), List.append_nil,
    List.reverse_reverse]
  intro c member
  refine decide_eq_true fun same => unseparated ?_
  rw [← same]
  exact List.mem_reverse.mp member

theorem not_mem_afterLast (separator : Char) (text : List Char)
    : separator ∉ afterLast separator text := by
  intro member
  have different := List.mem_takeWhile_imp (List.mem_reverse.mp member)
  simp at different

theorem mem_of_mem_afterLast {separator c : Char} {text : List Char}
    (member : c ∈ afterLast separator text)
    : c ∈ text :=
  List.mem_reverse.mp ((List.takeWhile_prefix _).subset (List.mem_reverse.mp member))

theorem split_cons (separator c : Char) (rest : List Char)
    : split separator (c :: rest)
      = if c = separator then [] :: split separator rest
        else consHead c (split separator rest) :=
  rfl

/-- No piece of a text holds the separator, by induction on the text. -/
theorem not_mem_of_mem_split {separator : Char} {text piece : List Char}
    (member : piece ∈ split separator text)
    : separator ∉ piece := by
  induction text generalizing piece with
  | nil =>
      obtain rfl := List.mem_singleton.mp member
      exact List.not_mem_nil
  | cons c rest ih =>
      rw [split_cons] at member
      split at member
      · rcases List.mem_cons.mp member with rfl | later
        · exact List.not_mem_nil
        · exact ih later
      · next different =>
          have extended {head : List Char} (unseparated : separator ∉ head)
              : separator ∉ c :: head :=
            List.not_mem_cons_of_ne_of_not_mem (Ne.symm different) unseparated
          cases pieces : split separator rest with
          | nil =>
              rw [pieces, consHead, List.mem_singleton] at member
              exact member ▸ extended List.not_mem_nil
          | cons head others =>
              rw [pieces, consHead] at member
              rcases List.mem_cons.mp member with rfl | later
              · exact extended (ih (pieces ▸ List.mem_cons_self))
              · exact ih (pieces ▸ List.mem_cons_of_mem head later)

theorem split_append {separator : Char} {piece rest : List Char} (unseparated : separator ∉ piece)
    : split separator (piece ++ separator :: rest) = piece :: split separator rest := by
  induction piece with
  | nil => simp [split]
  | cons c others ih =>
      rw [List.mem_cons, not_or] at unseparated
      have later := ih unseparated.2
      unfold split at later ⊢
      rw [List.cons_append, List.foldr_cons, later, if_neg (Ne.symm unseparated.1), consHead]

theorem split_of_not_mem {separator : Char} {text : List Char} (unseparated : separator ∉ text)
    : split separator text = [text] := by
  induction text with
  | nil => rfl
  | cons c rest ih =>
      rw [List.mem_cons, not_or] at unseparated
      have later := ih unseparated.2
      unfold split at later ⊢
      rw [List.foldr_cons, later, if_neg (Ne.symm unseparated.1), consHead]

/-- Splitting undoes joining, by induction on the pieces. -/
theorem split_intercalate {separator : Char} {piece : List Char} {pieces : List (List Char)}
    (unseparated : ∀ other ∈ piece :: pieces, separator ∉ other)
    : split separator ([separator].intercalate (piece :: pieces)) = piece :: pieces := by
  induction pieces generalizing piece with
  | nil => simpa using split_of_not_mem (unseparated piece List.mem_cons_self)
  | cons next rest ih =>
      have first := unseparated piece List.mem_cons_self
      have later := ih fun other member => unseparated other (List.mem_cons_of_mem _ member)
      rw [List.intercalate_cons_cons, List.append_assoc, List.singleton_append, split_append first,
        later]

/-- There is always a piece: an empty text is one blank piece. -/
theorem split_ne_nil (separator : Char) (text : List Char) : split separator text ≠ [] := by
  cases text with
  | nil => exact List.cons_ne_nil [] []
  | cons c rest =>
      rw [split_cons]
      split
      · exact List.cons_ne_nil [] _
      · cases split separator rest <;> exact List.cons_ne_nil _ _

/-- Joining undoes splitting, by induction on the text. -/
theorem intercalate_split (separator : Char) (text : List Char)
    : [separator].intercalate (split separator text) = text := by
  induction text with
  | nil => rfl
  | cons c rest ih =>
      obtain ⟨piece, pieces, shape⟩ := List.exists_cons_of_ne_nil (split_ne_nil separator rest)
      rw [shape] at ih
      rw [split_cons, shape]
      split
      · next same =>
          rw [List.intercalate_cons_cons, ih, same]
          rfl
      · rw [consHead, ← ih]
        cases pieces with
        | nil => simp
        | cons next others => rw [List.intercalate_cons_cons, List.intercalate_cons_cons]; rfl

end Dialogue.Text
