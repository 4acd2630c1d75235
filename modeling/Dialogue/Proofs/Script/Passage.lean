import Dialogue.Proofs.Script.Decoding

/-! Dialogue trees as an author has them in mind, and the lines that they are written on. -/

namespace Dialogue

/-- A line without its number. -/
structure Row where
  tags : List String
  content : String
  deriving Repr, DecidableEq

def Line.row (line : Line) : Row :=
  ⟨line.tags, line.content⟩

/-- The line of a number that holds the row. -/
def Row.at (number : Nat) (row : Row) : Line :=
  ⟨number, row.tags, row.content⟩

def Row.render (row : Row) : String :=
  (row.at 0).render

/-- The tag that closes a block. -/
def Row.closing : Row :=
  ⟨["/"], ""⟩

/-- How a name is written that something belongs to: in one tag or in two. -/
inductive Form where
  | joined
  | paired
  deriving Repr, DecidableEq

/-- A choice that an option offers. Its text may be left out, and then the tag stands for it. -/
structure Offer where
  tag : String
  text : String
  deriving Repr, DecidableEq

/-- What is shown by itself. An option has at least one choice. -/
inductive Remark where
  | scene (content : String)
  | say (speaker content : String)
  | think (speaker qualifier content : String)
  | option (form : Form) (name : String) (first : Offer) (others : List Offer)
  deriving Repr, DecidableEq

/-- The label of a branch. -/
structure Cue where
  form : Form
  guard : Guard
  deriving Repr, DecidableEq

/-- What closes a scope: the end of the dialogue, the tag that leaves the branch, or nothing. -/
inductive Closing where
  | ended
  | dead
  | runsOut
  deriving Repr, DecidableEq

mutual

/-- A dialogue tree: remarks and choices blocks in order, up to what closes them. -/
inductive Passage where
  | remark (remark : Remark) (rest : Passage)
  | choices (forks : Forks) (rest : Passage)
  | close (closing : Closing)

/-- The branches of a choices block, of which there is at least one. -/
inductive Forks where
  | last (cue : Cue) (body : Passage)
  | cons (cue : Cue) (body : Passage) (rest : Forks)

end

-----------------------------------------------------------------------------------------
-- Writing
-----------------------------------------------------------------------------------------

namespace Offer

def row (offer : Offer) : Row :=
  ⟨[offer.tag], offer.text⟩

/-- What a player gets to choose. -/
def shown (offer : Offer) : String :=
  if offer.text.isEmpty then offer.tag else offer.text

end Offer

namespace Remark

/-- The row that a remark begins with. -/
def header : Remark → Row
  | .scene content => ⟨["scene"], content⟩
  | .say speaker content => ⟨[speaker], content⟩
  | .think speaker qualifier content => ⟨[speaker, qualifier], content⟩
  | .option .joined name _ _ => ⟨["option"], name⟩
  | .option .paired name _ _ => ⟨["option", name], ""⟩

/-- The rows of a remark. Those of an option go up to its closing tag. -/
def rows (remark : Remark) : List Row :=
  match remark with
  | .option _ _ first others =>
      remark.header :: ((first :: others).map Offer.row ++ [Row.closing])
  | _ => [remark.header]

def beat : Remark → Beat
  | .scene content => .scene content
  | .say speaker content => .say speaker content
  | .think speaker _ content => .think speaker content
  | .option _ name first others => .option name ((first :: others).map Offer.shown)

def names : Remark → List String
  | .option _ name _ _ => [name]
  | _ => []

end Remark

def Cue.row (cue : Cue) : Row :=
  match cue.form with
  | .joined => ⟨[cue.guard.render], ""⟩
  | .paired => ⟨[cue.guard.option, toString cue.guard.threshold], ""⟩

def Closing.rows : Closing → List Row
  | .ended => [⟨["END"], ""⟩]
  | .dead => [⟨["//"], ""⟩]
  | .runsOut => []

mutual

/-- The rows of a tree, in order. -/
def Passage.rows : Passage → List Row
  | .remark remark rest => remark.rows ++ rest.rows
  | .choices forks rest => ⟨["choices"], ""⟩ :: (forks.rows ++ Row.closing :: rest.rows)
  | .close closing => closing.rows

/-- The rows of branches, each of them after its label. -/
def Forks.rows : Forks → List Row
  | .last cue body => cue.row :: body.rows
  | .cons cue body rest => cue.row :: (body.rows ++ rest.rows)

end

mutual

/-- The names of the options of a tree, with repetitions. -/
def Passage.names : Passage → List String
  | .remark remark rest => remark.names ++ rest.names
  | .choices forks rest => forks.names ++ rest.names
  | .close _ => []

/-- The names of the options of branches, with repetitions. -/
def Forks.names : Forks → List String
  | .last _ body => body.names
  | .cons _ body rest => body.names ++ rest.names

end

-----------------------------------------------------------------------------------------
-- Legible trees
-----------------------------------------------------------------------------------------

/-- A text that can stand on a line: trimmed, and without brackets and line ends. -/
def Text.Plain (text : String) : Prop :=
  Text.Trimmed text.toList ∧ ∀ c ∈ text.toList, c ≠ '<' ∧ c ≠ '>' ∧ c ≠ '\n'

instance (text : String) : Decidable (Text.Plain text) :=
  @instDecidableAnd _ _ inferInstance (List.decidableBAll _ text.toList)

/-- The tags that mean something of their own. -/
def keywords : List String :=
  ["scene", "option", "END", "choices", "//", "/"]

/-- A name that an option can have, so that it can be written in a branch label. -/
structure LegibleName (name : String) : Prop where
  plain : Text.Plain name
  filled : name ≠ ""
  undivided : ',' ∉ name.toList
  opensNot : name ≠ "option" ∧ name ≠ "choices"

/-- A choice whose tag cannot be taken for what opens or closes a block. -/
structure Offer.Legible (offer : Offer) : Prop where
  tag : Text.Plain offer.tag
  tagged : offer.tag ≠ ""
  opensNot : offer.tag ≠ "option" ∧ offer.tag ≠ "choices"
  closesNot : offer.tag ≠ "/"
  text : Text.Plain offer.text

/-- A remark that cannot be taken for anything else in a tree whose options have these names. -/
def Remark.Legible (names : List String) : Remark → Prop
  | .scene content => Text.Plain content
  | .say speaker content =>
      Text.Plain speaker
      ∧ speaker ≠ ""
      ∧ speaker ∉ keywords
      ∧ (∀ parts, Text.cut ',' speaker.toList = some parts
          → String.ofList (Text.trim parts.1) ∉ names)
      ∧ Text.Plain content
  | .think speaker qualifier content =>
      Text.Plain speaker
      ∧ speaker ≠ ""
      ∧ (speaker ≠ "option" ∧ speaker ≠ "choices")
      ∧ speaker ∉ names
      ∧ Text.Plain qualifier
      ∧ qualifier ≠ ""
      ∧ Text.Plain content
  | .option _ name first others => LegibleName name ∧ ∀ offer ∈ first :: others, offer.Legible

/-- The label of a branch asks for one of these options, and its threshold is not too large. -/
def Cue.Legible (names : List String) (cue : Cue) : Prop :=
  cue.guard.option ∈ names ∧ cue.guard.threshold ≤ maxThreshold

mutual

/-- Everything in a tree is legible. -/
def Passage.LegibleIn (names : List String) : Passage → Prop
  | .remark remark rest => remark.Legible names ∧ rest.LegibleIn names
  | .choices forks rest => forks.LegibleIn names ∧ rest.LegibleIn names
  | .close _ => True

def Forks.LegibleIn (names : List String) : Forks → Prop
  | .last cue body => cue.Legible names ∧ body.LegibleIn names
  | .cons cue body rest => cue.Legible names ∧ body.LegibleIn names ∧ rest.LegibleIn names

end

/-- A tree that can be written down: it is not empty, and everything in it is legible given the
names of its own options.
-/
structure Passage.Legible (passage : Passage) : Prop where
  filled : passage ≠ .close .runsOut
  all : passage.LegibleIn passage.names

-----------------------------------------------------------------------------------------
-- Checking legibility
-----------------------------------------------------------------------------------------

instance (name : String) : Decidable (LegibleName name) :=
  decidable_of_iff
    (Text.Plain name ∧ name ≠ "" ∧ ',' ∉ name.toList ∧ name ≠ "option" ∧ name ≠ "choices")
    ⟨fun checked => ⟨checked.1, checked.2.1, checked.2.2.1, checked.2.2.2⟩,
      fun legible => ⟨legible.plain, legible.filled, legible.undivided, legible.opensNot⟩⟩

instance (offer : Offer) : Decidable offer.Legible :=
  decidable_of_iff
    (Text.Plain offer.tag
      ∧ offer.tag ≠ ""
      ∧ (offer.tag ≠ "option" ∧ offer.tag ≠ "choices")
      ∧ offer.tag ≠ "/"
      ∧ Text.Plain offer.text)
    ⟨fun checked =>
        ⟨checked.1, checked.2.1, checked.2.2.1, checked.2.2.2.1, checked.2.2.2.2⟩,
      fun legible =>
        ⟨legible.tag, legible.tagged, legible.opensNot, legible.closesNot, legible.text⟩⟩

instance (names : List String) (remark : Remark) : Decidable (remark.Legible names) :=
  match remark with
  | .scene content => inferInstanceAs (Decidable (Text.Plain content))
  | .say speaker _ =>
      have : Decidable (∀ parts, Text.cut ',' speaker.toList = some parts
          → String.ofList (Text.trim parts.1) ∉ names) :=
        inferInstanceAs (Decidable (∀ parts ∈ Text.cut ',' speaker.toList, _))
      inferInstanceAs (Decidable (_ ∧ _ ∧ _ ∧ _ ∧ _))
  | .think _ _ _ => inferInstanceAs (Decidable (_ ∧ _ ∧ _ ∧ _ ∧ _ ∧ _ ∧ _))
  | .option _ _ first others => inferInstanceAs (Decidable (_ ∧ ∀ offer ∈ first :: others, _))

instance (names : List String) (cue : Cue) : Decidable (cue.Legible names) :=
  inferInstanceAs (Decidable (_ ∧ _))

mutual

/-- Whether everything in a tree is legible. -/
def Passage.decideLegibleIn (names : List String)
    : (passage : Passage) → Decidable (passage.LegibleIn names)
  | .remark _ rest =>
      have := rest.decideLegibleIn names
      inferInstanceAs (Decidable (_ ∧ _))
  | .choices forks rest =>
      have := forks.decideLegibleIn names
      have := rest.decideLegibleIn names
      inferInstanceAs (Decidable (_ ∧ _))
  | .close _ => .isTrue trivial

/-- Whether everything in branches is legible. -/
def Forks.decideLegibleIn (names : List String)
    : (forks : Forks) → Decidable (forks.LegibleIn names)
  | .last _ body =>
      have := body.decideLegibleIn names
      inferInstanceAs (Decidable (_ ∧ _))
  | .cons _ body rest =>
      have := body.decideLegibleIn names
      have := rest.decideLegibleIn names
      inferInstanceAs (Decidable (_ ∧ _ ∧ _))

end

instance (names : List String) (passage : Passage) : Decidable (passage.LegibleIn names) :=
  passage.decideLegibleIn names

instance (passage : Passage) : Decidable passage.Legible :=
  if all : passage.LegibleIn passage.names then
    match passage with
    | .close .runsOut => .isFalse fun legible => legible.filled rfl
    | .remark _ _ | .choices _ _ => .isTrue ⟨Passage.noConfusion, all⟩
    | .close .ended | .close .dead =>
        .isTrue ⟨fun same => Closing.noConfusion (Passage.close.inj same), all⟩
  else .isFalse fun legible => all legible.all

end Dialogue
