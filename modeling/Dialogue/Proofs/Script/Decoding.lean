import Dialogue.Proofs.Script.Tagging

/-! Decoding a rendered line gives the line back, and what is decoded from any text is a line that
is given back in this way.
-/

namespace Dialogue.Line

open Text

/-- A line that its text determines: one or two tags that are not blank, and everything trimmed and
without closing brackets of its own.
-/
structure WellFormed (line : Line) : Prop where
  tagged : line.tags ≠ []
  few : line.tags.length ≤ 2
  tags : ∀ tag ∈ line.tags, tag ≠ "" ∧ Trimmed tag.toList ∧ '>' ∉ tag.toList
  trimmed : Trimmed line.content.toList
  content : '>' ∉ line.content.toList

/-- The characters of a rendered line: those of its tags, each in brackets, and those of its
content.
-/
theorem toList_render (line : Line)
    : line.render.toList
      = line.tags.flatMap (fun tag => '<' :: tag.toList ++ ['>']) ++ line.content.toList := by
  rw [render, String.toList_append, String.toList_join, List.flatMap_map]
  simp

/-- A text without closing brackets has no tags. -/
theorem tagTexts_of_not_mem {text : List Char} (unclosed : '>' ∉ text) : tagTexts text = [] := by
  refine tagged_iff.mp (.none fun before after shape closes => unclosed ?_)
  simp [shape, closes]

/-- The first tag of a text that begins with one, and then those of the rest. -/
theorem tagTexts_tag {tag rest : List Char} (unclosed : '>' ∉ tag)
    : tagTexts ('<' :: tag ++ '>' :: rest) = tag :: tagTexts rest :=
  tagTexts_of_some (nextTag?_pair List.not_mem_nil unclosed)

/-- Rendered tags are found in order, by induction on them. -/
theorem tagTexts_render {tags : List String} {content : List Char}
    (unclosed : ∀ tag ∈ tags, '>' ∉ tag.toList) (plain : '>' ∉ content)
    : tagTexts (tags.flatMap (fun tag => '<' :: tag.toList ++ ['>']) ++ content)
      = tags.map String.toList := by
  induction tags with
  | nil => simpa using tagTexts_of_not_mem plain
  | cons tag rest ih =>
      rw [List.flatMap_cons, List.append_assoc, List.append_assoc, List.singleton_append,
        tagTexts_tag (unclosed tag List.mem_cons_self),
        ih fun other member => unclosed other (List.mem_cons_of_mem _ member), List.map_cons]

/-- The content of a rendered line is what follows its last bracket, by looking at its last tag. -/
theorem afterLast_render {tags : List String} {content : List Char} (tagged : tags ≠ [])
    (plain : '>' ∉ content)
    : afterLast '>' (tags.flatMap (fun tag => '<' :: tag.toList ++ ['>']) ++ content)
        = content := by
  obtain ⟨before, last, rfl⟩ := (List.eq_nil_or_concat tags).resolve_left tagged
  rw [List.concat_eq_append, List.flatMap_append, List.flatMap_singleton, ← List.append_assoc,
    List.append_assoc, List.singleton_append]
  exact afterLast_append plain

/-- A well-formed line is decoded from its text. -/
theorem decode_render {line : Line} (wellFormed : line.WellFormed)
    : decode line.number line.render = .ok line := by
  have unclosed (tag : String) (member : tag ∈ line.tags) := (wellFormed.tags tag member).2.2
  have found : (tagTexts line.render.toList).map trim = line.tags.map String.toList := by
    rw [toList_render, tagTexts_render unclosed wellFormed.content, List.map_map]
    exact List.map_congr_left fun tag member => (wellFormed.tags tag member).2.1
  have solid : (line.tags.map String.toList).any List.isEmpty = false := by
    simpa using fun tag member => (wellFormed.tags tag member).1
  have content : trim (afterLast '>' line.render.toList) = line.content.toList := by
    rw [toList_render, afterLast_render wellFormed.tagged wellFormed.content]
    exact wellFormed.trimmed
  have tagged := wellFormed.tagged
  have few := wellFormed.few
  simp only [decode, found, solid, content, List.length_map, List.isEmpty_map]
  simp [tagged, Nat.not_lt.mpr few]

/-- A well-formed line is rendered without blanks around it: it begins with a bracket, and it ends
with one or with its content.
-/
theorem trimmed_render {line : Line} (wellFormed : line.WellFormed)
    : Trimmed line.render.toList := by
  obtain ⟨-, contentEnds⟩ := trimmed_iff.mp wellFormed.trimmed
  refine trimmed_iff.mpr ⟨fun first begins => ?_, fun last ends => ?_⟩ <;> rw [toList_render] at *
  · cases tags : line.tags with
    | nil => exact absurd tags wellFormed.tagged
    | cons tag rest =>
        simp [tags] at begins
        rw [← begins]
        rfl
  · rw [List.getLast?_append, Option.or_eq_some_iff] at ends
    rcases ends with inContent | ⟨-, inTags⟩
    · exact contentEnds last inContent
    · obtain ⟨before, tag, tags⟩ :=
        (List.eq_nil_or_concat line.tags).resolve_left wellFormed.tagged
      have bracket : some '>' = some last := by simpa [tags, List.getLast?_cons] using inTags
      obtain rfl := Option.some.inj bracket
      rfl

-----------------------------------------------------------------------------------------
-- Lines that are decoded
-----------------------------------------------------------------------------------------

/-- No tag of a text has a closing bracket inside, by induction on the tags. -/
theorem Tagged.not_mem {text : List Char} {tags : List (List Char)} (tagged : Tagged text tags)
    : ∀ tag ∈ tags, '>' ∉ tag := by
  induction tagged with
  | none _ => exact List.forall_mem_nil _
  | pair _ inside _ ih => exact List.forall_mem_cons.mpr ⟨inside, ih⟩

/-- A line that is decoded is well formed, however its text is written. -/
theorem wellFormed_of_decode {number : Nat} {text : String} {line : Line}
    (decoded : decode number text = .ok line)
    : line.WellFormed := by
  obtain ⟨tags, tagged, someTag, few, filled, rfl⟩ := decode_eq_ok_iff.mp decoded
  refine {
    tagged := by simpa using someTag
    few := by simpa using few
    tags := ?_
    trimmed := ?_
    content := ?_
  }
  · intro shown member
    obtain ⟨tag, found, rfl⟩ := List.mem_map.mp member
    rw [String.toList_ofList]
    refine ⟨fun blank => filled tag found ?_, trimmed_trim tag, fun closes => ?_⟩
    · exact String.ofList_eq_empty_iff.mp blank
    · exact tagged.not_mem tag found (mem_of_mem_trim closes)
  · rw [String.toList_ofList]
    exact trimmed_trim _
  · rw [String.toList_ofList]
    exact fun closes => not_mem_afterLast '>' _ (mem_of_mem_trim closes)

/-- Every well-formed line is decoded from its text. Every text has tags of its own, which decide
whether a line is decoded from it and, if none is, which fault is reported. The line that is decoded
has these tags, trimmed, and it is well formed, so that it is decoded from its own text again.
-/
theorem decode_inverts_render
    : (∀ line : Line, line.WellFormed → decode line.number line.render = .ok line)
      ∧ ∀ number text,
          ∃ tags,
            (∀ others, Tagged text.toList others ↔ others = tags)
            ∧ ((∃ line, decode number text = .ok line)
              ↔ (tags.length = 1 ∨ tags.length = 2) ∧ ∀ tag ∈ tags, trim tag ≠ [])
            ∧ (∀ line,
                decode number text = .ok line
                → line.number = number
                  ∧ line.tags = tags.map (fun tag => String.ofList (trim tag))
                  ∧ line.WellFormed
                  ∧ decode number line.render = .ok line)
            ∧ ((∃ tag ∈ tags, trim tag = []) → decode number text = .error (.emptyTag number))
            ∧ (tags = [] → decode number text = .error (.missingTag number text))
            ∧ ((∀ tag ∈ tags, trim tag ≠ [])
                → 2 < tags.length
                → decode number text = .error (.tooManyTags number tags.length)) := by
  refine ⟨fun line wellFormed => decode_render wellFormed, fun number text => ?_⟩
  have tagged := tagged_tagTexts text.toList
  have own (others : List (List Char))
      : Tagged text.toList others ↔ others = tagTexts text.toList :=
    tagged_iff.trans eq_comm
  refine ⟨tagTexts text.toList, own, ?_, fun line decoded => ?_, ?_, fun none => ?_, ?_⟩
  · rw [exists_decode_iff, WellTagged]
    constructor
    · rintro ⟨tags, hasTags, someTag, few, filled⟩
      obtain rfl := (own tags).mp hasTags
      have positive := List.length_pos_iff.mpr someTag
      exact ⟨by omega, filled⟩
    · rintro ⟨few, filled⟩
      exact ⟨_, tagged, List.ne_nil_of_length_pos (by omega), by omega, filled⟩
  · have wellFormed := wellFormed_of_decode decoded
    have again := decode_render wellFormed
    obtain ⟨tags, hasTags, -, -, -, rfl⟩ := decode_eq_ok_iff.mp decoded
    obtain rfl := (own tags).mp hasTags
    exact ⟨rfl, rfl, wellFormed, again⟩
  · rintro ⟨tag, member, blank⟩
    exact decode_eq_error_iff.mpr (.blank tagged member blank)
  · rw [none] at tagged
    exact decode_eq_error_iff.mpr (.missing tagged)
  · exact fun filled many => decode_eq_error_iff.mpr (.tooMany tagged many filled)

/-- Opening brackets that open no tag of their own are kept, one inside of a tag and one in the
content. The same line is decoded from a text with other words around its tags, and a line with a
blank tag is refused for it before the number of its tags is looked at.
-/
theorem stray_brackets_decode
    : (Line.mk 7 ["Bo <b", "softly"] "c < d").WellFormed
      ∧ decode 7 "<Bo <b><softly>c < d" = .ok ⟨7, ["Bo <b", "softly"], "c < d"⟩
      ∧ decode 7 "a > <Bo <b > hm <softly> c < d " = .ok ⟨7, ["Bo <b", "softly"], "c < d"⟩
      ∧ decode 7 "<a>< ><b><c>" = .error (.emptyTag 7) := by
  obtain ⟨inverts, each⟩ := decode_inverts_render
  have loose
      : decode 7 "a > <Bo <b > hm <softly> c < d "
        = .ok ⟨7, ["Bo <b", "softly"], "c < d"⟩ := by
    decide +kernel
  obtain ⟨_, -, -, decodes, -⟩ := each 7 "a > <Bo <b > hm <softly> c < d "
  obtain ⟨-, -, wellFormed, -⟩ := decodes _ loose
  obtain ⟨tags, own, -, -, blank, -⟩ := each 7 "<a>< ><b><c>"
  obtain rfl : [['a'], [' '], ['b'], ['c']] = tags :=
    (own _).mp (tagged_iff.mpr (by decide +kernel))
  exact ⟨wellFormed, inverts _ wellFormed, loose, blank ⟨[' '], by decide, by decide⟩⟩

end Dialogue.Line
