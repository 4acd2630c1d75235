import Dialogue.Proofs.Script.Passage

/-! What lines say, told from their tags: what a line says by itself is one statement at most, and
what opens a block says so whatever options are known.
-/

namespace Dialogue

namespace Line

/-- The line opens the block of the option of this name, which is its content or its second tag. -/
def Heads (line : Line) (name : String) : Prop :=
  (line.tags = ["option"] ∧ line.content = name ∧ name ≠ "") ∨ line.tags = ["option", name]

/-- What the tags of a line make it say by itself. -/
inductive Tells (line : Line) : Statement → Prop where
  | scene (tags : line.tags = ["scene"]) : line.Tells (.scene line.content)
  | option {name} (heads : line.Heads name) : line.Tells (.option name)
  | ending (tags : line.tags = ["END"]) : line.Tells .ending
  | choices (tags : line.tags = ["choices"]) : line.Tells .choices
  | dead (tags : line.tags = ["//"]) : line.Tells .dead
  | terminator (tags : line.tags = ["/"]) : line.Tells .terminator
  | say {speaker} (tags : line.tags = [speaker]) (free : speaker ∉ keywords)
    : line.Tells (.say speaker line.content)
  | think {speaker manner} (tags : line.tags = [speaker, manner]) (free : speaker ≠ "option")
    : line.Tells (.think speaker line.content)

/-- A line that is no label says what its tags make it say, by cases on them. -/
theorem plainStatement_eq_ok_iff {line : Line} {statement : Statement}
    : line.plainStatement = .ok statement ↔ line.Tells statement := by
  constructor
  · intro plain
    unfold plainStatement at plain
    split at plain
    case h_1 tags => cases plain; exact .scene tags
    case h_2 tags =>
      split at plain
      · cases plain
      · next filled =>
          cases plain
          exact .option (Or.inl ⟨tags, rfl, by simpa using filled⟩)
    case h_3 tags => cases plain; exact .option (Or.inr tags)
    case h_4 tags => cases plain; exact .ending tags
    case h_5 tags => cases plain; exact .choices tags
    case h_6 tags => cases plain; exact .dead tags
    case h_7 tags => cases plain; exact .terminator tags
    case h_8 tags => cases plain; exact .say tags (by simp_all [keywords])
    case h_9 tags => cases plain; exact .think tags (by simp_all)
    case h_10 => cases plain
  · intro tells
    cases tells with
    | option heads =>
        rcases heads with ⟨tags, rfl, filled⟩ | tags
        · simp [plainStatement, tags, filled]
        · simp [plainStatement, tags]
    | say tags free | think tags free => unfold plainStatement; split <;> simp_all [keywords]
    | scene tags | ending tags | choices tags | dead tags | terminator tags =>
        simp [plainStatement, tags]

theorem Tells.unique {line : Line} {left right : Statement} (first : line.Tells left)
    (second : line.Tells right)
    : left = right := by
  rw [← plainStatement_eq_ok_iff] at first second
  exact Except.ok.inj (first.symm.trans second)

/-- What a line says where options are known it says by itself, unless it is a label for one. -/
theorem tells_of_statement {line : Line} {known : List String} {statement : Statement}
    (means : line.statement known = .ok statement) (labelNot : ∀ name, statement ≠ .label name)
    : line.Tells statement := by
  unfold Line.statement at means
  split at means
  · exact absurd (Except.ok.inj means).symm (labelNot _)
  · exact plainStatement_eq_ok_iff.mp means

/-- Option blocks are opened by the same lines whatever options are known. -/
theorem statement_eq_option_iff {line : Line} {known : List String} {name : String}
    : line.statement known = .ok (.option name) ↔ line.Heads name := by
  constructor
  · intro means
    cases tells_of_statement means fun _ => Statement.noConfusion with
    | option heads => exact heads
  · intro heads
    have unlabelled : line.labelParts? known = none := by
      rcases heads with ⟨tags, -⟩ | tags <;> simp [labelParts?, labelShape?, tags, Text.cut]
    rw [statement, unlabelled]
    exact plainStatement_eq_ok_iff.mpr (.option heads)

/-- Choices blocks are opened by the same lines whatever options are known. -/
theorem statement_eq_choices_iff {line : Line} {known : List String}
    : line.statement known = .ok .choices ↔ line.tags = ["choices"] := by
  constructor
  · intro means
    cases tells_of_statement means fun _ => Statement.noConfusion with
    | choices tags => exact tags
  · intro tags
    have unlabelled : line.labelParts? known = none := by
      simp [labelParts?, labelShape?, tags, Text.cut]
    rw [statement, unlabelled]
    exact plainStatement_eq_ok_iff.mpr (.choices tags)

-----------------------------------------------------------------------------------------
-- Lines that say nothing
-----------------------------------------------------------------------------------------

/-- The line is the header of an option block without the name of an option. -/
def Nameless (line : Line) : Prop :=
  line.tags = ["option"] ∧ line.content = ""

/-- The line has one or two tags. -/
def FewTags (line : Line) : Prop :=
  line.tags ≠ [] ∧ line.tags.length ≤ 2

/-- A line of one or two tags that is no label says something unless it is a nameless header, by
cases on its tags.
-/
theorem plainStatement_eq_error_iff {line : Line} {error : ScriptError} (few : line.FewTags)
    : line.plainStatement = .error error
      ↔ line.Nameless ∧ error = .missingOptionName line.number := by
  constructor
  · intro failed
    unfold plainStatement at failed
    split at failed
    case h_2 tags =>
      split at failed
      · next empty =>
          obtain rfl := Except.error.inj failed
          exact ⟨⟨tags, by simpa using empty⟩, rfl⟩
      · cases failed
    case h_10 pairNot singleNot =>
      obtain ⟨someTag, few⟩ := few
      match tags : line.tags with
      | [] => exact absurd tags someTag
      | [only] => exact absurd tags (pairNot only)
      | [first, second] => exact absurd tags (singleNot first second)
      | _ :: _ :: _ :: _ => simp [tags] at few
    all_goals cases failed
  · rintro ⟨⟨tags, empty⟩, rfl⟩
    simp [plainStatement, tags, empty]

/-- The same holds where options are known: a nameless header is a label for none of them. -/
theorem statement_eq_error_iff {line : Line} {known : List String} {error : ScriptError}
    (few : line.FewTags)
    : line.statement known = .error error
      ↔ line.Nameless ∧ error = .missingOptionName line.number := by
  rw [← plainStatement_eq_error_iff few, statement]
  split
  · next option text parts =>
      refine iff_of_false (by simp) fun failed => ?_
      obtain ⟨⟨tags, -⟩, -⟩ := (plainStatement_eq_error_iff few).mp failed
      simp [labelParts?, labelShape?, tags, Text.cut] at parts
  · rfl

theorem Heads.first? {line : Line} {name : String} (heads : line.Heads name)
    : line.first? = some "option" := by
  rcases heads with ⟨tags, -⟩ | tags <;> simp [Line.first?, tags]

theorem isOpening_of_first? {line : Line} (opens : line.first? = some "option")
    : line.isOpening = true := by
  simp [isOpening, opens]

theorem isOpening_of_tags {line : Line} (opens : line.tags = ["choices"])
    : line.isOpening = true := by
  simp [isOpening, first?, opens]

theorem isOpening_of_option {line : Line} {known : List String} {name : String}
    (means : line.statement known = .ok (.option name))
    : line.isOpening = true :=
  isOpening_of_first? (statement_eq_option_iff.mp means).first?

theorem isOpening_of_choices {line : Line} {known : List String}
    (means : line.statement known = .ok .choices)
    : line.isOpening = true :=
  isOpening_of_tags (statement_eq_choices_iff.mp means)

end Line

end Dialogue
