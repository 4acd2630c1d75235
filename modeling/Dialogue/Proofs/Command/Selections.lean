import Dialogue.Command.Selections
import Dialogue.Proofs.Script.Reads
import Dialogue.Proofs.Text.Trimming

/-! Lists of answers: which texts are lists of indices, what is read from them, and which item of
any other text is refused.
-/

namespace Dialogue.Command

open Text

-----------------------------------------------------------------------------------------
-- Items
-----------------------------------------------------------------------------------------

/-- The items of a text are what stands between its commas, trimmed, but for what is blank. -/
def HasItems (value : String) (items : List (List Char)) : Prop :=
  ∃ pieces,
    pieces ≠ []
    ∧ (∀ piece ∈ pieces, ',' ∉ piece)
    ∧ [','].intercalate pieces = value.toList
    ∧ items = (pieces.map trim).filter fun item => !item.isEmpty

/-- Every text has the items that splitting gives and no others, since pieces without commas are
told from the text that they are joined to.
-/
theorem hasItems_iff {value : String} {items : List (List Char)}
    : HasItems value items ↔ items = selectionItems value := by
  constructor
  · rintro ⟨pieces, filled, free, joined, rfl⟩
    obtain ⟨first, rest, rfl⟩ := List.exists_cons_of_ne_nil filled
    rw [selectionItems, ← joined, split_intercalate free]
  · rintro rfl
    exact ⟨_, split_ne_nil ',' value.toList, fun _ => not_mem_of_mem_split,
      intercalate_split ',' value.toList, rfl⟩

/-- Texts joined with commas are the items of what they are joined to, unless they are blank, have
blanks around them or commas in them.
-/
theorem selectionItems_intercalate {texts : List String} (free : ∀ text ∈ texts, ',' ∉ text.toList)
    (trimmed : ∀ text ∈ texts, Trimmed text.toList) (filled : ∀ text ∈ texts, text ≠ "")
    : selectionItems (String.intercalate "," texts) = texts.map String.toList := by
  cases texts with
  | nil => rfl
  | cons first rest =>
      have pieces
          : split ',' (String.intercalate "," (first :: rest)).toList
            = (first :: rest).map String.toList := by
        have apart : ∀ piece ∈ (first :: rest).map String.toList, ',' ∉ piece :=
          List.forall_mem_map.mpr free
        rw [String.toList_intercalate]
        exact split_intercalate apart
      have kept
          : ((first :: rest).map String.toList).map trim = (first :: rest).map String.toList :=
        (List.map_congr_left (List.forall_mem_map.mpr trimmed)).trans (List.map_id _)
      rw [selectionItems, pieces, kept, List.filter_eq_self]
      exact List.forall_mem_map.mpr fun text member => by simpa using filled text member

/-- An item is an index: a plus sign or nothing and then decimal digits, of 64 bits in value. -/
def IsIndex (item : List Char) (index : Nat) : Prop :=
  Denotes item index ∧ index < UInt64.size

theorem readSelection_eq_ok_iff {item : List Char} {index : Nat}
    : readSelection item = .ok index ↔ IsIndex item index := by
  have bound : index ≤ maxIndex ↔ index < UInt64.size := Nat.le_sub_one_iff_lt (by decide)
  rw [IsIndex, ← bound, ← readNumeral_eq_ok_iff, readSelection]
  cases readNumeral maxIndex item <;> simp [Except.mapError]

/-- An item is refused for the reason that it is no numeral within the bound, and by its name. -/
theorem readSelection_eq_error_iff {item : List Char} {error : SelectionError}
    : readSelection item = .error error
      ↔ error.item = String.ofList item ∧ readNumeral maxIndex item = .error error.cause := by
  obtain ⟨named, cause⟩ := error
  rw [readSelection]
  cases readNumeral maxIndex item <;> simp [Except.mapError, eq_comm]

theorem not_isIndex_of_error {item : List Char} {error : SelectionError}
    (refused : readSelection item = .error error)
    : ¬∃ index, IsIndex item index := by
  rintro ⟨index, isIndex⟩
  cases refused.symm.trans (readSelection_eq_ok_iff.mpr isIndex)

/-- Indices joined with commas are read back. Of any text, a list of indices is read exactly if they
are its items one by one, and otherwise the first item that is no index is refused by its name.
-/
theorem readSelections_exact
    : (∀ indices : List Nat,
        (∀ index ∈ indices, index < UInt64.size)
        → readSelections (String.intercalate "," (indices.map toString)) = .ok indices)
      ∧ ∀ value,
          ∃ items,
            HasItems value items
            ∧ (∀ indices,
                readSelections value = .ok indices ↔ List.Forall₂ IsIndex items indices)
            ∧ ∀ error,
                readSelections value = .error error
                ↔ ∃ before item after,
                    items = before ++ item :: after
                    ∧ (∀ other ∈ before, ∃ index, IsIndex other index)
                    ∧ (¬∃ index, IsIndex item index)
                    ∧ error.item = String.ofList item
                    ∧ readNumeral maxIndex item = .error error.cause := by
  have read {value : String} {indices : List Nat}
      : readSelections value = .ok indices
        ↔ List.Forall₂ IsIndex (selectionItems value) indices := by
    simp only [readSelections, mapM_eq_ok_iff_forall₂, readSelection_eq_ok_iff]
  refine ⟨fun indices inBound => ?_, fun value => ?_⟩
  · have items
        : selectionItems (String.intercalate "," (indices.map toString))
          = (indices.map toString).map String.toList := by
      refine selectionItems_intercalate (List.forall_mem_map.mpr fun index _ comma => ?_)
        (List.forall_mem_map.mpr fun index _ => trimmed_toString index)
        (List.forall_mem_map.mpr fun index _ => by simp)
      cases isDigit_of_mem_toString comma
    rw [read, items, List.map_map, List.forall₂_map_left_iff, List.forall₂_same]
    exact fun index member => ⟨denotes_toString index, inBound index member⟩
  · refine ⟨selectionItems value, hasItems_iff.mpr rfl, fun _ => read, fun error => ?_⟩
    rw [readSelections, mapM_eq_error_iff]
    simp only [readSelection_eq_ok_iff]
    refine exists_congr fun before => exists_congr fun item => exists_congr fun after => ?_
    refine and_congr_right fun _ => and_congr_right fun _ => ?_
    rw [← readSelection_eq_error_iff]
    exact ⟨fun refused => ⟨not_isIndex_of_error refused, refused⟩, And.right⟩

/-- The largest index is read back. Signs, zeros, blanks and empty items make no difference, and the
first item that is no index is the one beyond the bound, not the one that is no number.
-/
theorem largest_index_read
    : (∀ index ∈ [7, 18446744073709551615], index < UInt64.size)
      ∧ readSelections "7,18446744073709551615" = .ok [7, 18446744073709551615]
      ∧ List.Forall₂ IsIndex ["+007".toList, "18446744073709551615".toList]
          [7, 18446744073709551615]
      ∧ readSelections " +007,,\u3000 18446744073709551615 ," = .ok [7, 18446744073709551615]
      ∧ IsIndex "1".toList 1
      ∧ (¬∃ index, IsIndex "18446744073709551616".toList index)
      ∧ readSelections "1,18446744073709551616,x"
        = .error ⟨"18446744073709551616", .tooLarge⟩ := by
  obtain ⟨readBack, told⟩ := readSelections_exact
  have inBound : ∀ index ∈ [7, 18446744073709551615], index < UInt64.size := by decide
  have joined
      : String.intercalate "," ([7, 18446744073709551615].map toString)
        = "7,18446744073709551615" := by
    decide +kernel
  have signed
      : List.Forall₂ IsIndex ["+007".toList, "18446744073709551615".toList]
          [7, 18446744073709551615] :=
    .cons (readSelection_eq_ok_iff.mp (by decide +kernel))
      (.cons (readSelection_eq_ok_iff.mp (by decide +kernel)) .nil)
  have one : IsIndex "1".toList 1 := readSelection_eq_ok_iff.mp (by decide +kernel)
  have beyond
      : readSelection "18446744073709551616".toList
        = .error ⟨"18446744073709551616", .tooLarge⟩ := by
    decide +kernel
  have refused := not_isIndex_of_error beyond
  refine ⟨inBound, joined ▸ readBack _ inBound, signed, ?_, one, refused, ?_⟩
  · obtain ⟨items, hasItems, read, -⟩ := told " +007,,\u3000 18446744073709551615 ,"
    have found : items = ["+007".toList, "18446744073709551615".toList] :=
      (hasItems_iff.mp hasItems).trans (by decide +kernel)
    exact (read _).mpr (found ▸ signed)
  · obtain ⟨items, hasItems, -, fails⟩ := told "1,18446744073709551616,x"
    have found : items = ["1".toList, "18446744073709551616".toList, "x".toList] :=
      (hasItems_iff.mp hasItems).trans (by decide +kernel)
    have before : ∀ other ∈ ["1".toList], ∃ index, IsIndex other index :=
      List.forall_mem_singleton.mpr ⟨1, one⟩
    have named := readSelection_eq_error_iff.mp beyond
    exact (fails _).mpr ⟨["1".toList], _, ["x".toList], found, before, refused, named⟩

end Dialogue.Command
