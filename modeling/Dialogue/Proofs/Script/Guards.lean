import Dialogue.Proofs.Script.Decoding
import Dialogue.Proofs.Script.Labels

/-! The labels that a guard is written as, with two tags or with one that a comma divides. Whatever
label a guard is read from, it is read from these labels again.
-/

namespace Dialogue

open Text

/-- The labels for a guard: one with two tags, and one with a single tag unless a comma in the name
would divide it too early.
-/
def Guard.labels (guard : Guard) : List String :=
  ("<" ++ guard.option ++ "><" ++ toString guard.threshold ++ ">")
    :: if ',' ∈ guard.option.toList then [] else ["<" ++ guard.render ++ ">"]

/-- A name that a tag can hold, other than the tag that opens option blocks. -/
structure IsLabelName (name : String) : Prop where
  filled : name ≠ ""
  trimmed : Trimmed name.toList
  unclosed : '>' ∉ name.toList
  free : name ≠ "option"

/-- A line that is decoded from the text states the guard, whether or not its threshold has to be a
number.
-/
def Guard.ReadFrom (guard : Guard) (names : List String) (text : String) : Prop :=
  ∀ number,
    ∃ line,
      Line.decode number text = .ok line
      ∧ line.guard names = .ok (some guard)
      ∧ line.branch? names = some guard

namespace Line

variable {names : List String}

/-- A well-formed line that states a guard is read from its text, since it is decoded from it. -/
theorem StatesGuard.readFrom {guard : Guard} {tags : List String}
    (states : ∀ number, (Line.mk number tags "").StatesGuard names guard)
    (wellFormed : ∀ number, (Line.mk number tags "").WellFormed)
    : guard.ReadFrom names (Line.mk 0 tags "").render := by
  intro number
  have decoded : decode number (Line.mk number tags "").render = .ok ⟨number, tags, ""⟩ :=
    decode_render (wellFormed number)
  exact ⟨_, decoded, guard_eq_some_iff.mpr (states number),
    branch?_eq_some_iff.mpr (states number)⟩

/-- Tags without content make a well-formed line if each is filled, trimmed and unclosed. -/
theorem wellFormed_of_tags {tags : List String} (tagged : tags ≠ []) (few : tags.length ≤ 2)
    (each : ∀ tag ∈ tags, tag ≠ "" ∧ Trimmed tag.toList ∧ '>' ∉ tag.toList) (number : Nat)
    : (Line.mk number tags "").WellFormed where
  tagged := tagged
  few := few
  tags := each
  trimmed := rfl
  content := List.not_mem_nil

/-- The decimal digits of a number can stand in a tag. -/
theorem tag_toString (number : Nat)
    : toString number ≠ ""
      ∧ Trimmed (toString number).toList
      ∧ '>' ∉ (toString number).toList := by
  refine ⟨by simp, trimmed_toString number, fun closes => ?_⟩
  cases isDigit_of_mem_toString closes

/-- The guard of a name that a tag can hold is read from its label with two tags. -/
theorem readFrom_pair {guard : Guard} (member : guard.option ∈ names)
    (named : IsLabelName guard.option) (inBound : guard.threshold ≤ maxThreshold)
    : guard.ReadFrom names
        ("<" ++ guard.option ++ "><" ++ toString guard.threshold ++ ">") := by
  have written : (Line.mk 0 [guard.option, toString guard.threshold] "").render
      = "<" ++ guard.option ++ "><" ++ toString guard.threshold ++ ">" := by
    rw [← String.toList_inj, toList_render]
    simp
  rw [← written]
  refine StatesGuard.readFrom (fun number => ?_) (wellFormed_of_tags (by simp) (by simp) ?_)
  · exact ⟨_, Or.inl rfl, named.free, member, denotes_toString _, inBound⟩
  · rw [List.forall_mem_cons, List.forall_mem_singleton]
    exact ⟨⟨named.filled, named.trimmed, named.unclosed⟩, tag_toString guard.threshold⟩

/-- If the name has no comma, the guard is also read from its label with one tag: the comma divides
the tag into the name and the digits.
-/
theorem readFrom_single {guard : Guard} (member : guard.option ∈ names)
    (named : IsLabelName guard.option) (undivided : ',' ∉ guard.option.toList)
    (inBound : guard.threshold ≤ maxThreshold)
    : guard.ReadFrom names ("<" ++ guard.render ++ ">") := by
  have written : (Line.mk 0 [guard.render] "").render = "<" ++ guard.render ++ ">" := by
    rw [← String.toList_inj, toList_render]
    simp
  obtain ⟨someDigit, trimmedDigits, unclosedDigits⟩ := tag_toString guard.threshold
  have shape := guard.toList_render
  rw [← written]
  refine StatesGuard.readFrom (fun number => ?_) (wellFormed_of_tags (by simp) (by simp) ?_)
  · refine ⟨toString guard.threshold, Or.inr ⟨_, _, _, rfl, shape, undivided, ?_, ?_⟩,
      named.free, member, denotes_toString _, inBound⟩
    · rw [show trim guard.option.toList = guard.option.toList from named.trimmed,
        String.ofList_toList]
    · rw [show trim (toString guard.threshold).toList = (toString guard.threshold).toList
        from trimmedDigits, String.ofList_toList]
  · rw [List.forall_mem_singleton, shape]
    refine ⟨fun blank => ?_, ?_, ?_⟩
    · simp [blank] at shape
    · have around := trimmed_around [','] named.trimmed trimmedDigits
        (String.toList_eq_nil_iff.not.mpr named.filled)
        (String.toList_eq_nil_iff.not.mpr someDigit)
      rwa [List.append_assoc, List.singleton_append] at around
    · rw [List.mem_append, List.mem_cons, not_or, not_or]
      exact ⟨named.unclosed, by decide, unclosedDigits⟩

/-- The guard of a name that a tag can hold is read from all its labels. -/
theorem readFrom_labels {guard : Guard} (member : guard.option ∈ names)
    (named : IsLabelName guard.option) (inBound : guard.threshold ≤ maxThreshold)
    : ∀ text ∈ guard.labels, guard.ReadFrom names text := by
  intro text isLabel
  rcases List.mem_cons.mp isLabel with rfl | single
  · exact readFrom_pair member named inBound
  · split at single
    · cases single
    · next undivided =>
        obtain rfl := List.mem_singleton.mp single
        exact readFrom_single member named undivided inBound

/-- The name in a label on a decoded line can be held by a tag, by cases on the number of tags. -/
theorem StatesGuard.isLabelName {line : Line} {guard : Guard} (wellFormed : line.WellFormed)
    (states : line.StatesGuard names guard) (filled : "" ∉ names)
    : IsLabelName guard.option := by
  obtain ⟨text, shaped, free, member, -⟩ := states
  have named : guard.option ≠ "" := fun blank => filled (blank ▸ member)
  rcases shaped with pair | ⟨tag, before, after, single, parts, -, name, -⟩
  · obtain ⟨-, trimmed, unclosed⟩ := wellFormed.tags guard.option (by simp [pair])
    exact ⟨named, trimmed, unclosed, free⟩
  · obtain ⟨-, -, unclosed⟩ := wellFormed.tags tag (by simp [single])
    refine ⟨named, ?_, fun closes => unclosed ?_, free⟩
    · rw [name, String.toList_ofList]
      exact trimmed_trim before
    · rw [name, String.toList_ofList] at closes
      simp [parts, mem_of_mem_trim closes]

-----------------------------------------------------------------------------------------
-- Main statement
-----------------------------------------------------------------------------------------

/-- A guard with a name that a tag can hold is read from its labels. A guard that is read from any
decoded line names one of the options by such a name, and the text of its threshold is digits, with
a plus sign in front of them or without. So it is read from its labels again.
-/
theorem guard_labels_exact (filled : "" ∉ names)
    : (∀ guard : Guard,
        guard.option ∈ names
        → IsLabelName guard.option
        → guard.threshold < UInt32.size
        → ∀ text ∈ guard.labels, guard.ReadFrom names text)
      ∧ ∀ number text line guard,
          decode number text = .ok line
          → line.branch? names = some guard
          → guard.option ∈ names
            ∧ IsLabelName guard.option
            ∧ line.guard names = .ok (some guard)
            ∧ (∃ threshold,
                line.LabelShaped guard.option threshold
                ∧ Denotes threshold.toList guard.threshold)
            ∧ guard.threshold < UInt32.size
            ∧ ∀ label ∈ guard.labels, guard.ReadFrom names label := by
  constructor
  · intro guard member named inBound
    exact readFrom_labels member named (Nat.le_of_lt_succ inBound)
  · intro number text line guard decoded branch
    have states := branch?_eq_some_iff.mp branch
    have named := states.isLabelName (wellFormed_of_decode decoded) filled
    obtain ⟨threshold, shaped, -, member, denotes, inBound⟩ := branch?_eq_some_iff.mp branch
    exact ⟨member, named, guard_eq_some_iff.mpr states, ⟨threshold, shaped, denotes⟩,
      Nat.lt_succ_of_le inBound, readFrom_labels member named inBound⟩

/-- A name with digits, blanks and an opening bracket, and a name with a comma, which only two tags
can tell from its threshold. A sign, zeros and blanks around the threshold make no difference.
-/
theorem odd_names_labels
    : "" ∉ ["Bo <2", "a,b"]
      ∧ (Guard.mk "Bo <2" 4294967295).ReadFrom ["Bo <2", "a,b"] "<Bo <2,4294967295>"
      ∧ (Guard.mk "a,b" 7).labels = ["<a,b><7>"]
      ∧ (∃ line,
          decode 3 "<a,b>< +007 >" = .ok line
          ∧ line.branch? ["Bo <2", "a,b"] = some ⟨"a,b", 7⟩)
      ∧ (Guard.mk "a,b" 7).ReadFrom ["Bo <2", "a,b"] "<a,b><7>" := by
  have filled : "" ∉ ["Bo <2", "a,b"] := by decide
  obtain ⟨written, read⟩ := guard_labels_exact filled
  have named : IsLabelName "Bo <2" := ⟨by decide, by decide, by decide, by decide⟩
  have decoded : decode 3 "<a,b>< +007 >" = .ok ⟨3, ["a,b", "+007"], ""⟩ := by decide +kernel
  have branch : (Line.mk 3 ["a,b", "+007"] "").branch? ["Bo <2", "a,b"] = some ⟨"a,b", 7⟩ := by
    decide +kernel
  have labels : (Guard.mk "a,b" 7).labels = ["<a,b><7>"] := by decide +kernel
  obtain ⟨-, -, -, -, -, again⟩ := read 3 _ _ _ decoded branch
  refine ⟨filled, ?_, labels, ⟨_, decoded, branch⟩, again _ (by simp [labels])⟩
  exact written ⟨"Bo <2", 4294967295⟩ (by simp) named (by decide) _ (by decide +kernel)

end Line

end Dialogue
