import Dialogue.Proofs.Script.Sources
import Dialogue.Proofs.Script.Wording

/-! A legible tree that is written down is decoded to its rows, whether its lines are given one by
one or in one text.
-/

namespace Dialogue

/-- A row of one or two tags with texts that can stand on a line. -/
structure Row.Plain (row : Row) : Prop where
  tagged : row.tags ≠ []
  few : row.tags.length ≤ 2
  tags : ∀ tag ∈ row.tags, tag ≠ "" ∧ Text.Plain tag
  content : Text.Plain row.content

namespace Row.Plain

/-- A plain row makes a line that its text determines. -/
theorem wellFormed {row : Row} (plain : row.Plain) (number : Nat)
    : (row.at number).WellFormed where
  tagged := plain.tagged
  few := plain.few
  tags := by
    intro tag member
    obtain ⟨filled, trimmed, free⟩ := plain.tags tag member
    exact ⟨filled, trimmed, fun bracket => (free _ bracket).2.1 rfl⟩
  trimmed := plain.content.1
  content := fun bracket => (plain.content.2 _ bracket).2.1 rfl

theorem trim_render {row : Row} (plain : row.Plain)
    : Text.trim row.render.toList = row.render.toList :=
  Line.trimmed_render (plain.wellFormed 0)

theorem not_mem_render {row : Row} (plain : row.Plain) : '\n' ∉ row.render.toList := by
  intro member
  rw [Row.render, Line.toList_render, List.mem_append] at member
  rcases member with inTags | inContent
  · obtain ⟨tag, isTag, inTag⟩ := List.mem_flatMap.mp inTags
    have inside : '\n' ∈ tag.toList := by simpa using inTag
    exact ((plain.tags tag isTag).2.2 _ inside).2.2 rfl
  · exact (plain.content.2 _ inContent).2.2 rfl

theorem render_ne_nil {row : Row} (plain : row.Plain) : row.render.toList ≠ [] := by
  rw [Row.render, Line.toList_render]
  cases tags : row.tags with
  | nil => exact absurd tags plain.tagged
  | cons tag rest => simp [Row.at, tags]

end Row.Plain

theorem Row.plain_single {tag content : String} (filled : tag ≠ "") (plainTag : Text.Plain tag)
    (plain : Text.Plain content)
    : Row.Plain ⟨[tag], content⟩ where
  tagged := List.cons_ne_nil _ _
  few := Nat.le_succ _
  tags := by simp [filled, plainTag]
  content := plain

theorem Row.plain_pair {first second content : String} (filled : first ≠ "" ∧ second ≠ "")
    (plainTags : Text.Plain first ∧ Text.Plain second) (plain : Text.Plain content)
    : Row.Plain ⟨[first, second], content⟩ where
  tagged := List.cons_ne_nil _ _
  few := Nat.le_refl _
  tags := by simp [filled, plainTags]
  content := plain

-----------------------------------------------------------------------------------------
-- Rows of legible trees
-----------------------------------------------------------------------------------------

theorem Text.plain_toString (number : Nat) : Text.Plain (toString number) := by
  refine ⟨trimmed_toString number, fun c member => ?_⟩
  have digit := isDigit_of_mem_toString member
  refine ⟨?_, ?_, ?_⟩ <;> rintro rfl <;> cases digit

/-- The rows of a legible remark are plain, by cases on the remark. -/
theorem Remark.plain_rows {names : List String} {remark : Remark} (legible : remark.Legible names)
    : ∀ row ∈ remark.rows, row.Plain := by
  cases remark with
  | scene content => simpa [rows, header] using Row.plain_single (by decide) (by decide) legible
  | say speaker content =>
      obtain ⟨plain, filled, -, -, plainContent⟩ := legible
      simpa [rows, header] using Row.plain_single filled plain plainContent
  | think speaker qualifier content =>
      obtain ⟨plain, filled, -, -, plainQualifier, filledQualifier, plainContent⟩ := legible
      simpa [rows, header] using
        Row.plain_pair ⟨filled, filledQualifier⟩ ⟨plain, plainQualifier⟩ plainContent
  | option form name first others =>
      obtain ⟨named, offers⟩ := legible
      intro row member
      simp only [rows, List.mem_cons, List.mem_append, List.not_mem_nil, or_false] at member
      rcases member with rfl | isOffer | rfl
      · cases form with
        | joined => exact Row.plain_single (by decide) (by decide) named.plain
        | paired =>
            exact Row.plain_pair ⟨by decide, named.filled⟩ ⟨by decide, named.plain⟩ (by decide)
      · obtain ⟨offer, offered, rfl⟩ := List.mem_map.mp isOffer
        have legible := offers offer offered
        exact Row.plain_single legible.tagged legible.tag legible.text
      · exact Row.plain_single (by decide) (by decide) (by decide)

/-- The row of a legible label is plain, whichever form it is written in. -/
theorem Cue.plain_row {names : List String} (nameable : ∀ name ∈ names, LegibleName name)
    {cue : Cue} (legible : cue.Legible names)
    : cue.row.Plain := by
  obtain ⟨form, name, threshold⟩ := cue
  have named := nameable name legible.1
  have filled : (toString threshold).toList ≠ [] := by simp
  cases form with
  | joined =>
      have text : (Guard.render ⟨name, threshold⟩).toList
          = name.toList ++ [','] ++ (toString threshold).toList := by
        rw [Guard.toList_render, List.append_assoc, List.singleton_append]
      refine Row.plain_single ?_ ⟨?_, ?_⟩ (by decide)
      · simp [Guard.render]
      · rw [text]
        exact Text.trimmed_around _ named.plain.1 (Text.plain_toString threshold).1
          (by simpa using named.filled) filled
      · rw [text]
        intro c member
        simp only [List.mem_append, List.mem_singleton] at member
        rcases member with (inName | rfl) | inNumeral
        · exact named.plain.2 c inName
        · decide
        · exact (Text.plain_toString threshold).2 c inNumeral
  | paired =>
      exact Row.plain_pair ⟨named.filled, by simp⟩
        ⟨named.plain, Text.plain_toString threshold⟩ (by decide)

mutual

/-- The rows of a legible tree are plain, by induction on the tree. -/
theorem Passage.plain_rows {names : List String} (nameable : ∀ name ∈ names, LegibleName name)
    (passage : Passage) (legible : passage.LegibleIn names)
    : ∀ row ∈ passage.rows, row.Plain := by
  intro row member
  cases passage with
  | remark remark rest =>
      rcases List.mem_append.mp member with here | later
      · exact remark.plain_rows legible.1 row here
      · exact rest.plain_rows nameable legible.2 row later
  | choices forks rest =>
      simp only [Passage.rows, List.mem_cons, List.mem_append] at member
      rcases member with rfl | inForks | rfl | later
      · exact Row.plain_single (by decide) (by decide) (by decide)
      · exact forks.plain_rows nameable legible.1 row inForks
      · exact Row.plain_single (by decide) (by decide) (by decide)
      · exact rest.plain_rows nameable legible.2 row later
  | close closing =>
      cases closing <;> simp [Passage.rows, Closing.rows] at member <;> subst member
      · exact Row.plain_single (by decide) (by decide) (by decide)
      · exact Row.plain_single (by decide) (by decide) (by decide)

/-- The rows of legible branches are plain, by induction on the branches. -/
theorem Forks.plain_rows {names : List String} (nameable : ∀ name ∈ names, LegibleName name)
    (forks : Forks) (legible : forks.LegibleIn names)
    : ∀ row ∈ forks.rows, row.Plain := by
  intro row member
  cases forks with
  | last cue body =>
      rcases List.mem_cons.mp member with rfl | inBody
      · exact Cue.plain_row nameable legible.1
      · exact body.plain_rows nameable legible.2 row inBody
  | cons cue body rest =>
      simp only [Forks.rows, List.mem_cons, List.mem_append] at member
      rcases member with rfl | inBody | later
      · exact Cue.plain_row nameable legible.1
      · exact body.plain_rows nameable legible.2.1 row inBody
      · exact rest.plain_rows nameable legible.2.2 row later

end

-----------------------------------------------------------------------------------------
-- Texts of plain rows
-----------------------------------------------------------------------------------------

/-- Numbered texts of plain rows are decoded to these rows, by induction on the texts. -/
theorem Line.decodeAll_rows {texts : List (Nat × String)} {rows : List Row}
    (plain : ∀ row ∈ rows, row.Plain) (written : texts.map Prod.snd = rows.map Row.render)
    : ∃ lines, decodeAll texts = .ok lines ∧ lines.map row = rows := by
  induction texts generalizing rows with
  | nil =>
      obtain rfl := List.map_eq_nil_iff.mp written.symm
      exact ⟨[], rfl, rfl⟩
  | cons text rest ih =>
      obtain ⟨first, others, rfl, render, restWritten⟩ := List.map_eq_cons_iff.mp written.symm
      obtain ⟨lines, decoded, held⟩ :=
        ih (fun other member => plain other (List.mem_cons_of_mem _ member)) restWritten.symm
      have wellFormed := (plain first List.mem_cons_self).wellFormed text.1
      refine ⟨first.at text.1 :: lines, decodeAll_cons.mpr ⟨_, lines, ?_, decoded, rfl⟩, ?_⟩
      · rw [← render]
        exact decode_render wellFormed
      · rw [List.map_cons, held]
        rfl

namespace Script

/-- Texts of plain rows are decoded to these rows when they are given as lines. -/
theorem decodeAll_of_rows {rows : List Row} (plain : ∀ row ∈ rows, row.Plain)
    : ∃ lines,
        Line.decodeAll ((((rows.map Row.render).map trimmed).zipIdx 1).map Prod.swap) = .ok lines
        ∧ lines.map Line.row = rows := by
  refine Line.decodeAll_rows plain ?_
  have unchanged : (rows.map Row.render).map trimmed = rows.map Row.render := by
    rw [List.map_map]
    exact List.map_congr_left fun row member => by simp [trimmed, (plain row member).trim_render]
  rw [unchanged, List.map_map]
  exact List.zipIdx_map_fst 1 _

theorem map_snd_numberedLines (source : String)
    : (numberedLines source).map Prod.snd
      = (((Text.split '\n' source.toList).map Text.trim).filter (!·.isEmpty)).map
          String.ofList := by
  unfold numberedLines
  generalize (Text.split '\n' source.toList).map Text.trim = lines
  rw [List.map_map]
  conv_rhs => rw [← List.zipIdx_map_fst 1 lines, List.filter_map, List.map_map]
  rfl

/-- Texts of plain rows that are joined by line ends are the lines of the whole text. -/
theorem numberedLines_intercalate {rows : List Row} (plain : ∀ row ∈ rows, row.Plain)
    : (numberedLines (String.intercalate "\n" (rows.map Row.render))).map Prod.snd
      = rows.map Row.render := by
  rw [map_snd_numberedLines, String.toList_intercalate]
  cases rows with
  | nil => rfl
  | cons first others =>
      have pieces : Text.split '\n'
            (List.intercalate "\n".toList (((first :: others).map Row.render).map String.toList))
          = ((first :: others).map Row.render).map String.toList := by
        have single : ∀ piece ∈ ((first :: others).map Row.render).map String.toList,
            '\n' ∉ piece := by
          intro piece member
          obtain ⟨text, isText, rfl⟩ := List.mem_map.mp member
          obtain ⟨row, isRow, rfl⟩ := List.mem_map.mp isText
          exact (plain row isRow).not_mem_render
        exact Text.split_intercalate single
      rw [pieces, List.map_map, List.map_map, List.filter_eq_self.mpr, List.map_map]
      · exact List.map_congr_left fun row member => by simp [(plain row member).trim_render]
      · intro piece member
        obtain ⟨row, isRow, rfl⟩ := List.mem_map.mp member
        simpa [(plain row isRow).trim_render] using (plain row isRow).render_ne_nil

end Script

end Dialogue
