import Dialogue.Proofs.Text.Trimming
import Dialogue.Script.Compile

/-! The tags of a text are told from where its brackets stand, and a line is refused for its tags
alone.
-/

namespace Dialogue.Line

/-- The insides of the tags of a text, from left to right. A tag goes from the next opening bracket
to the first closing bracket after it.
-/
inductive Tagged : List Char → List (List Char) → Prop where
  | none {text} (unpaired : ∀ before after, text = before ++ '<' :: after → '>' ∉ after)
    : Tagged text []
  | pair {before tag after tags} (outside : '<' ∉ before) (inside : '>' ∉ tag)
    (rest : Tagged after tags)
    : Tagged (before ++ '<' :: tag ++ '>' :: after) (tag :: tags)

-----------------------------------------------------------------------------------------
-- The next tag
-----------------------------------------------------------------------------------------

theorem nextTag?_pair {before tag after : List Char} (outside : '<' ∉ before)
    (inside : '>' ∉ tag)
    : nextTag? (before ++ '<' :: tag ++ '>' :: after) = some (tag, after) := by
  rw [nextTag?, List.append_assoc, List.cons_append, Text.cut_append outside, Option.bind_some]
  exact Text.cut_append inside

/-- The next tag stands around its brackets, by cutting at both of them. -/
theorem of_nextTag? {text tag after : List Char} (found : nextTag? text = some (tag, after))
    : ∃ before, '<' ∉ before ∧ '>' ∉ tag ∧ text = before ++ '<' :: tag ++ '>' :: after := by
  obtain ⟨⟨before, inside⟩, opened, closed⟩ := Option.bind_eq_some_iff.mp found
  obtain ⟨outside, rfl⟩ := Text.of_cut opened
  obtain ⟨unclosed, rfl⟩ := Text.of_cut closed
  exact ⟨before, outside, unclosed, by simp⟩

/-- There is no next tag where no closing bracket follows an opening one: what follows a later
opening bracket also follows the first.
-/
theorem nextTag?_eq_none_iff {text : List Char}
    : nextTag? text = none ↔ ∀ before after, text = before ++ '<' :: after → '>' ∉ after := by
  constructor
  · rintro none before after rfl closes
    cases opened : Text.cut '<' (before ++ '<' :: after) with
    | none => exact absurd (by simp) (Text.cut_eq_none_iff.mp opened)
    | some parts =>
        obtain ⟨start, inside⟩ := parts
        obtain ⟨outside, same⟩ := Text.of_cut opened
        rw [nextTag?, opened, Option.bind_some, Text.cut_eq_none_iff] at none
        rcases List.append_eq_append_iff.mp same with ⟨more, rfl, later⟩ | ⟨more, rfl, later⟩
        · cases more with
          | nil => exact none (by rwa [← (List.cons.inj later).2])
          | cons c others =>
              obtain rfl := (List.cons.inj later).1
              exact outside (by simp)
        · cases more with
          | nil => exact none (by rwa [(List.cons.inj later).2])
          | cons c others => exact none (by simp [(List.cons.inj later).2, closes])
  · intro unpaired
    refine Option.eq_none_iff_forall_ne_some.mpr fun parts found => ?_
    obtain ⟨before, -, -, rfl⟩ := of_nextTag? found
    exact unpaired before (parts.1 ++ '>' :: parts.2) (by simp) (by simp)

-----------------------------------------------------------------------------------------
-- All tags
-----------------------------------------------------------------------------------------

theorem tagTexts_of_none {text : List Char} (none : nextTag? text = none) : tagTexts text = [] := by
  rw [tagTexts]
  split
  · next found => cases none.symm.trans found
  · rfl

theorem tagTexts_of_some {text tag after : List Char} (found : nextTag? text = some (tag, after))
    : tagTexts text = tag :: tagTexts after := by
  rw [tagTexts]
  split
  · next same =>
      obtain ⟨rfl, rfl⟩ := Prod.mk.inj (Option.some.inj (found.symm.trans same))
      rfl
  · next none => cases found.symm.trans none

/-- All tags of a text are found, by recursion on what follows the first. -/
theorem tagged_tagTexts (text : List Char) : Tagged text (tagTexts text) := by
  cases found : nextTag? text with
  | none =>
      rw [tagTexts_of_none found]
      exact .none (nextTag?_eq_none_iff.mp found)
  | some parts =>
      obtain ⟨tag, after⟩ := parts
      rw [tagTexts_of_some found]
      obtain ⟨before, outside, inside, shape⟩ := of_nextTag? found
      have rest := tagged_tagTexts after
      rw [shape]
      exact .pair outside inside rest
termination_by text.length
decreasing_by exact length_of_nextTag? found

/-- A text has the tags that are found in it and no others, by induction on the tags. -/
theorem tagged_iff {text : List Char} {tags : List (List Char)}
    : Tagged text tags ↔ tagTexts text = tags := by
  constructor
  · intro tagged
    induction tagged with
    | none unpaired => exact tagTexts_of_none (nextTag?_eq_none_iff.mpr unpaired)
    | pair outside inside _ ih => rw [tagTexts_of_some (nextTag?_pair outside inside), ih]
  · rintro rfl
    exact tagged_tagTexts text

/-- Tags stand in the text, by induction on them. -/
theorem Tagged.subset {text : List Char} {tags : List (List Char)} (tagged : Tagged text tags)
    : ∀ tag ∈ tags, tag ⊆ text := by
  induction tagged with
  | none _ => exact List.forall_mem_nil _
  | pair _ _ _ ih =>
      refine List.forall_mem_cons.mpr ⟨fun c member => by simp [member], ?_⟩
      exact fun tag member c inTag => by simp [ih tag member inTag]

-----------------------------------------------------------------------------------------
-- Decoding
-----------------------------------------------------------------------------------------

/-- The text has one or two tags, and none of them is blank. -/
def WellTagged (text : List Char) : Prop :=
  ∃ tags, Tagged text tags ∧ tags ≠ [] ∧ tags.length ≤ 2 ∧ ∀ tag ∈ tags, Text.trim tag ≠ []

/-- What is wrong with the tags of a line of this number and text. -/
inductive TagFault (number : Nat) (text : String) : ScriptError → Prop where
  /-- There is no pair of brackets. -/
  | missing (untagged : Tagged text.toList []) : TagFault number text (.missingTag number text)
  | blank {tags tag} (tagged : Tagged text.toList tags) (member : tag ∈ tags)
    (blank : Text.trim tag = [])
    : TagFault number text (.emptyTag number)
  | tooMany {tags} (tagged : Tagged text.toList tags) (many : 2 < tags.length)
    (filled : ∀ tag ∈ tags, Text.trim tag ≠ [])
    : TagFault number text (.tooManyTags number tags.length)

/-- A line is refused exactly for what is wrong with its tags, by cases on the checks. -/
theorem decode_eq_error_iff {number : Nat} {text : String} {error : ScriptError}
    : decode number text = .error error ↔ TagFault number text error := by
  have tagged := tagged_tagTexts text.toList
  constructor
  · intro failed
    simp only [decode] at failed
    split at failed
    · next blank =>
        obtain rfl := Except.error.inj failed
        obtain ⟨tag, member, same⟩ : ∃ tag ∈ tagTexts text.toList, Text.trim tag = [] := by
          simpa using blank
        exact .blank tagged member same
    · next solid =>
        have filled : ∀ tag ∈ tagTexts text.toList, Text.trim tag ≠ [] := by simpa using solid
        split at failed
        · next none =>
            obtain rfl := Except.error.inj failed
            refine .missing ?_
            rwa [show tagTexts text.toList = [] by simpa using none] at tagged
        · split at failed
          · next many =>
              obtain rfl := Except.error.inj failed
              rw [List.length_map] at many ⊢
              exact .tooMany tagged many filled
          · cases failed
  · intro fault
    cases fault with
    | missing untagged => simp [decode, tagged_iff.mp untagged]
    | blank hasTags member blank =>
        obtain rfl := tagged_iff.mp hasTags
        have found : ∃ tag ∈ tagTexts text.toList, Text.trim tag = [] := ⟨_, member, blank⟩
        simp [decode, found]
    | tooMany hasTags many filled =>
        obtain rfl := tagged_iff.mp hasTags
        have someTag : tagTexts text.toList ≠ [] := List.ne_nil_of_length_pos (by omega)
        simpa [decode, many, someTag] using filled

/-- A line is decoded to its tags and its content, by cases on the checks. -/
theorem decode_eq_ok_iff {number : Nat} {text : String} {line : Line}
    : decode number text = .ok line
      ↔ ∃ tags,
          Tagged text.toList tags
          ∧ tags ≠ []
          ∧ tags.length ≤ 2
          ∧ (∀ tag ∈ tags, Text.trim tag ≠ [])
          ∧ line = {
              number
              tags := tags.map fun tag => String.ofList (Text.trim tag)
              content := String.ofList (Text.trim (Text.afterLast '>' text.toList))
            } := by
  constructor
  · intro decoded
    refine ⟨_, tagged_tagTexts text.toList, ?_⟩
    simp only [decode] at decoded
    split at decoded
    · cases decoded
    · next solid =>
        split at decoded
        · cases decoded
        · next someTag =>
            split at decoded
            · cases decoded
            · next few =>
                obtain rfl := Except.ok.inj decoded
                refine ⟨by simpa using someTag, by simpa using few, by simpa using solid, ?_⟩
                rw [List.map_map]
                rfl
  · rintro ⟨tags, tagged, someTag, few, filled, rfl⟩
    obtain rfl := tagged_iff.mp tagged
    simpa [decode, someTag, Nat.not_lt.mpr few, Function.comp_def] using filled

/-- A line is decoded exactly if it is well tagged. -/
theorem exists_decode_iff {number : Nat} {text : String}
    : (∃ line, decode number text = .ok line) ↔ WellTagged text.toList := by
  constructor
  · rintro ⟨line, decoded⟩
    obtain ⟨tags, tagged, someTag, few, filled, -⟩ := decode_eq_ok_iff.mp decoded
    exact ⟨tags, tagged, someTag, few, filled⟩
  · rintro ⟨tags, tagged, someTag, few, filled⟩
    exact ⟨_, decode_eq_ok_iff.mpr ⟨tags, tagged, someTag, few, filled, rfl⟩⟩

end Dialogue.Line
