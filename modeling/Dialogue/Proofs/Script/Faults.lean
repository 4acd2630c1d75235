import Dialogue.Proofs.Script.Containment
import Dialogue.Proofs.Script.Fidelity
import Dialogue.Proofs.Script.Labels
import Dialogue.Proofs.Script.Statements
import Dialogue.Proofs.Script.Tagging

/-! Every fault that is reported is one of the script, and it is found on the line that is named for
it. Faults of tags come first, then headers without a name, then faults of blocks.
-/

namespace Dialogue

namespace Line

-----------------------------------------------------------------------------------------
-- Faults of lines
-----------------------------------------------------------------------------------------

/-- Some line of the script opens the block of this option. -/
def Declares (lines : List Line) (name : String) : Prop :=
  ∃ header ∈ lines, header.Heads name

/-- The line is a label for an option of the script, with a number for its threshold. -/
def Labels (lines : List Line) (line : Line) : Prop :=
  ∃ name text number,
    line.LabelShaped name text
    ∧ name ≠ "option"
    ∧ Declares lines name
    ∧ IsThreshold text number

/-- No sole closing tag is left over after those of `nested` open blocks and of the blocks that
these lines open, which are told by their first tags.
-/
def Unclosed (nested : Nat) (lines : List Line) : Prop :=
  ∀ inside, inside <+: lines → inside.countP isTerminator ≤ nested + inside.countP isOpening

/-- A header is the first one without a name. -/
inductive HeaderFault (lines : List Line) : ScriptError → Prop where
  | intro {before header after} (split : lines = before ++ header :: after)
    (first : ∀ earlier ∈ before, ¬ earlier.Nameless) (nameless : header.Nameless)
    : HeaderFault lines (.missingOptionName header.number)

/-- What is wrong with a block, and which line is named for it. -/
inductive BlockFault (lines : List Line) : ScriptError → Prop where
  /-- No line after the header closes its block. -/
  | unterminatedOption {before header after name} (split : lines = before ++ header :: after)
    (heads : header.Heads name) (unclosed : ∀ line ∈ after, line.isTerminator = false)
    : BlockFault lines (.unterminatedOption name header.number)
  /-- The line after the header closes its block. -/
  | emptyOption {before header next after name}
    (split : lines = before ++ header :: next :: after) (heads : header.Heads name)
    (closes : next.isTerminator = true)
    : BlockFault lines (.emptyOption name header.number)
  /-- The line after the tag that opens a choices block has not the shape of a label for an option.
  -/
  | expectedBranch {before opening next after}
    (split : lines = before ++ opening :: next :: after) (opens : opening.tags = ["choices"])
    (labelNot : ∀ name text, next.LabelShaped name text → name ≠ "option" → ¬ Declares lines name)
    : BlockFault lines (.expectedBranch next.number (String.intercalate "><" next.tags))
  /-- The line after the tag that opens a choices block is a label without a number. -/
  | invalidThreshold {before opening next after name text}
    (split : lines = before ++ opening :: next :: after) (opens : opening.tags = ["choices"])
    (shaped : next.LabelShaped name text) (free : name ≠ "option")
    (declared : Declares lines name) (noNumber : ∀ number, ¬ IsThreshold text number)
    : BlockFault lines (.invalidThreshold next.number name text)
  /-- No line follows the tag that opens a choices block. -/
  | noBranch {before opening} (split : lines = before ++ [opening])
    (opens : opening.tags = ["choices"])
    : BlockFault lines (.unterminatedChoices opening.number)
  /-- No line after the first label closes a choices block. -/
  | unterminatedChoices {before opening label after}
    (split : lines = before ++ opening :: label :: after) (opens : opening.tags = ["choices"])
    (labels : label.Labels lines) (unclosed : Unclosed 0 after)
    : BlockFault lines (.unterminatedChoices opening.number)

-----------------------------------------------------------------------------------------
-- Headers
-----------------------------------------------------------------------------------------

theorem Nameless.first? {line : Line} (nameless : line.Nameless) : line.first? = some "option" := by
  simp [Line.first?, nameless.1]

/-- Lines that are decoded have one or two tags. -/
theorem fewTags_of_decode {number : Nat} {text : String} {line : Line}
    (decoded : decode number text = .ok line)
    : line.FewTags := by
  obtain ⟨tags, -, someTag, few, -, rfl⟩ := decode_eq_ok_iff.mp decoded
  exact ⟨by simpa using someTag, by simpa using few⟩

/-- Declaring the options of a script fails for the first header without a name: other lines with
such a tag say something, and lines without it are left out.
-/
theorem headerFault_of_optionNames {lines : List Line} {error : ScriptError}
    (few : ∀ line ∈ lines, line.FewTags) (failed : optionNames lines = .error error)
    : HeaderFault lines error := by
  rcases bind_eq_error_iff.mp failed with unread | ⟨_, _, returned⟩
  · obtain ⟨before, header, after, kept, each, refused⟩ := exists_first_of_mapM_eq_error unread
    obtain ⟨start, others, rfl, keptStart, keptOthers⟩ := List.filter_eq_append_iff.mp kept
    obtain ⟨passed, rest, rfl, dropped, -, -⟩ := List.filter_eq_cons_iff.mp keptOthers
    obtain ⟨nameless, rfl⟩ := (plainStatement_eq_error_iff (few header (by simp))).mp refused
    refine .intro (List.append_assoc start passed _).symm ?_ nameless
    intro earlier member unnamed
    rcases List.mem_append.mp member with inStart | inPassed
    · obtain ⟨statement, means⟩ := each earlier
        (keptStart ▸ List.mem_filter.mpr ⟨inStart, decide_eq_true unnamed.first?⟩)
      have silent :=
        (plainStatement_eq_error_iff (few earlier (by simp [inStart]))).mpr ⟨unnamed, rfl⟩
      cases means.symm.trans silent
    · exact dropped earlier inPassed (decide_eq_true unnamed.first?)
  · cases returned

/-- Where the options of a script can be declared, every header has a name. -/
theorem not_nameless_of_optionNames {lines : List Line} {declared : List String}
    (few : ∀ line ∈ lines, line.FewTags) (names : optionNames lines = .ok declared)
    : ∀ line ∈ lines, ¬ line.Nameless := by
  intro line member nameless
  obtain ⟨statements, mapped, -⟩ := bind_eq_ok_iff.mp names
  obtain ⟨statement, means⟩ := exists_of_mapM_eq_ok mapped line
    (List.mem_filter.mpr ⟨member, decide_eq_true nameless.first?⟩)
  cases means.symm.trans ((plainStatement_eq_error_iff (few line member)).mpr ⟨nameless, rfl⟩)

/-- Where every header has a name, the options of a script can be declared. -/
theorem exists_optionNames {lines : List Line} (few : ∀ line ∈ lines, line.FewTags)
    (named : ∀ line ∈ lines, ¬ line.Nameless)
    : ∃ declared, optionNames lines = .ok declared := by
  cases names : optionNames lines with
  | ok declared => exact ⟨declared, rfl⟩
  | error error =>
      obtain ⟨rfl, -, nameless⟩ := headerFault_of_optionNames few names
      exact absurd nameless (named _ (by simp))

-----------------------------------------------------------------------------------------
-- Option blocks
-----------------------------------------------------------------------------------------

/-- A block is left open if no line closes it, by induction on the lines. -/
theorem choicesFrom_eq_none_iff {index : Nat} {lines : List Line}
    : choicesFrom index lines = none ↔ ∀ line ∈ lines, line.isTerminator = false := by
  induction lines generalizing index with
  | nil => simp [choicesFrom]
  | cons line rest ih => cases closes : line.isTerminator <;> simp [choicesFrom, closes, ih]

/-- A block has no choices if its first line closes it. -/
theorem choicesFrom_eq_nil_iff {index close : Nat} {lines : List Line}
    : choicesFrom index lines = some ([], close)
      ↔ ∃ next after, lines = next :: after ∧ next.isTerminator = true ∧ index = close := by
  cases lines with
  | nil => simp [choicesFrom]
  | cons line rest => cases closes : line.isTerminator <;> simp [choicesFrom, closes]

section Split

variable (before after : List Line) (line : Line)

theorem drop_split : (before ++ line :: after).drop (before.length + 1) = after := by
  simp

theorem numberAt_split : numberAt (before ++ line :: after) before.length = line.number := by
  simp [numberAt]

end Split

/-- An option block is at fault if it is never closed or has no choices. -/
theorem blockFault_of_readOption {lines before after : List Line} {header : Line} {name : String}
    {error : ScriptError} (split : lines = before ++ header :: after) (heads : header.Heads name)
    (failed : readOption lines before.length name = .error error)
    : BlockFault lines error := by
  rw [readOption, split, drop_split, numberAt_split] at failed
  split at failed
  · next unclosed =>
      obtain rfl := Except.error.inj failed
      exact .unterminatedOption split heads (choicesFrom_eq_none_iff.mp unclosed)
  · next none =>
      obtain rfl := Except.error.inj failed
      obtain ⟨next, rest, rfl, closes, -⟩ := choicesFrom_eq_nil_iff.mp none
      exact .emptyOption split heads closes
  · cases failed

-----------------------------------------------------------------------------------------
-- Choices blocks
-----------------------------------------------------------------------------------------

/-- A line in front adds to the count of what it is. -/
theorem unclosed_cons {nested : Nat} {line : Line} {rest : List Line}
    : Unclosed nested (line :: rest)
      ↔ ∀ inside, inside <+: rest →
          (line :: inside).countP isTerminator ≤ nested + (line :: inside).countP isOpening := by
  constructor
  · intro unclosed inside before
    exact unclosed _ (List.cons_prefix_cons.mpr ⟨rfl, before⟩)
  · intro each inside before
    rcases List.prefix_cons_iff.mp before with rfl | ⟨inner, rfl, before⟩
    · simp
    · exact each inner (List.cons_prefix_cons.mp before).2

/-- A block is never closed if no closing tag is left over for it, by induction on the lines. -/
theorem scanFrom_eq_none_iff {names : List String} {nested index : Nat} {lines : List Line}
    : scanFrom names nested index lines = none ↔ Unclosed nested lines := by
  induction lines generalizing nested index with
  | nil => simp [scanFrom, Unclosed]
  | cons line rest ih =>
      rw [unclosed_cons]
      cases closes : line.isTerminator with
      | true =>
          have opensNot := not_isOpening_of_isTerminator closes
          cases nested with
          | zero =>
              rw [scanFrom_terminator_zero closes]
              refine iff_of_false (by simp) fun each => ?_
              simpa [closes, opensNot] using each [] List.nil_prefix
          | succ nested =>
              rw [scanFrom_terminator_succ closes, ih]
              simp [Unclosed, closes, opensNot, Nat.add_right_comm]
      | false =>
          cases opens : line.isOpening with
          | true =>
              rw [scanFrom_opening opens, ih]
              simp [Unclosed, closes, opens, Nat.add_assoc, Nat.add_comm 1]
          | false =>
              rw [← Option.map_eq_none_iff (f := Block.close), close_scanFrom_other opens closes,
                Option.map_eq_none_iff, ih]
              simp [Unclosed, closes, opens]

/-- A choices block is at fault if its first label is missing or has no number, or if no closing tag
is left over for the block.
-/
theorem blockFault_of_scanBlock {lines before after : List Line} {declared : List String}
    {opening : Line} {error : ScriptError} (names : optionNames lines = .ok declared)
    (split : lines = before ++ opening :: after) (opens : opening.tags = ["choices"])
    (failed : scanBlock lines declared before.length (before.length + 1) = .error error)
    : BlockFault lines error := by
  have declares (name : String) : name ∈ declared ↔ Declares lines name :=
    mem_iff_of_optionNames names
  have number : numberAt lines before.length = opening.number := by rw [split, numberAt_split]
  cases after with
  | nil =>
      have noLine : lines[before.length + 1]? = none := by simp [split]
      rw [scanBlock, noLine, number] at failed
      obtain rfl := Except.error.inj failed
      exact .noBranch split opens
  | cons label rest =>
      have here : lines[before.length + 1]? = some label := by simp [split]
      have dropped : lines.drop (before.length + 1 + 1) = rest := by
        rw [← List.drop_drop, split, drop_split, List.drop_one, List.tail_cons]
      rw [scanBlock, here, number, dropped] at failed
      cases guard : label.guard declared with
      | error other =>
          simp only [guard] at failed
          obtain rfl := Except.error.inj failed
          obtain ⟨name, text, shaped, free, member, noNumber, rfl⟩ := guard_eq_error_iff.mp guard
          exact .invalidThreshold split opens shaped free ((declares name).mp member) noNumber
      | ok stated =>
          cases stated with
          | none =>
              simp only [guard] at failed
              obtain rfl := Except.error.inj failed
              refine .expectedBranch split opens fun name text shaped free declared => ?_
              exact guard_eq_none_iff.mp guard name text shaped free ((declares name).mpr declared)
          | some states =>
              simp only [guard] at failed
              cases scanned : scanFrom declared 0 (before.length + 1 + 1) rest with
              | some block => simp [scanned] at failed
              | none =>
                  simp only [scanned] at failed
                  obtain rfl := Except.error.inj failed
                  obtain ⟨text, shaped, free, member, denotes⟩ := guard_eq_some_iff.mp guard
                  have labels : label.Labels lines :=
                    ⟨_, text, _, shaped, free, (declares _).mp member, denotes⟩
                  exact .unterminatedChoices split opens labels (scanFrom_eq_none_iff.mp scanned)

-----------------------------------------------------------------------------------------
-- Scopes
-----------------------------------------------------------------------------------------

theorem split_of_before? {lines : List Line} {stop cursor : Nat} {line : Line}
    (here : before? lines stop cursor = some line)
    : ∃ before after, lines = before ++ line :: after ∧ before.length = cursor := by
  unfold before? at here
  split at here
  · obtain ⟨inside, rfl⟩ := List.getElem?_eq_some_iff.mp here
    refine ⟨lines.take cursor, lines.drop (cursor + 1), ?_, List.length_take_of_le inside.le⟩
    rw [List.getElem_cons_drop, List.take_append_drop]
  · cases here

/-- Branches are at fault if one of their bodies is, by induction on their list. -/
theorem blockFault_of_readBranches {lines : List Line} {declared : List String} {opened : Nat}
    {branches : List Branch} {known : List String} {error : ScriptError}
    (each : ∀ branch ∈ branches, ∀ known,
      (readScope lines declared branch.stop branch.start known).outcome = .error error
      → BlockFault lines error)
    (failed : (readBranches lines opened branches
      (fun branch _ => readScope lines declared branch.stop branch.start) known).outcome
        = .error error)
    : BlockFault lines error := by
  induction branches generalizing known with
  | nil => cases failed
  | cons branch rest ih =>
      rw [readBranches_cons, Logged.outcome_bind, bind_eq_error_iff] at failed
      rcases failed with failedBody | ⟨body, -, failed⟩
      · exact each branch List.mem_cons_self known failedBody
      · rw [Logged.outcome_bind, bind_eq_error_iff] at failed
        rcases failed with failedRest | ⟨_, -, failed⟩
        · exact ih (fun other member => each other (List.mem_cons_of_mem _ member)) failedRest
        · cases failed

/-- A scope fails to be read for the fault of a block, by induction on the lines that are left.
Every line says something, since every header has a name.
-/
theorem blockFault_of_readScope {lines : List Line} {declared : List String}
    (few : ∀ line ∈ lines, line.FewTags) (names : optionNames lines = .ok declared)
    {stop cursor : Nat} {known : List String} {error : ScriptError}
    (failed : (readScope lines declared stop cursor known).outcome = .error error)
    : BlockFault lines error := by
  -- the first case is the end of the lines; the others are what a line at the cursor can say
  induction stop, cursor, known using readScope.induct lines declared with
  | case1 stop cursor known noLine =>
      rw [readScope_runsOut noLine] at failed
      cases failed
  | case2 stop cursor known line here other means =>
      obtain ⟨before, after, split, -⟩ := split_of_before? here
      have member : line ∈ lines := by simp [split]
      have nameless := ((statement_eq_error_iff (few line member)).mp means).1
      exact absurd nameless (not_nameless_of_optionNames few names line member)
  | case3 stop cursor known line here means ih
  | case4 stop cursor known line here _ means ih =>
      rw [readScope_silent here means rfl] at failed
      exact ih failed
  | case5 stop cursor known line here means =>
      rw [readScope_ended here means] at failed
      cases failed
  | case6 stop cursor known line here means =>
      rw [readScope_dead here means] at failed
      cases failed
  | case7 stop cursor known line here _ means ih
  | case8 stop cursor known line here _ _ means ih
  | case9 stop cursor known line here _ _ means ih =>
      rw [readScope_beat here means rfl, Logged.outcome_map, map_eq_error_iff] at failed
      exact ih failed
  | case10 stop cursor known line here name means other unread =>
      rw [readScope_option_error here means unread] at failed
      obtain rfl := Except.error.inj failed
      obtain ⟨before, after, split, rfl⟩ := split_of_before? here
      exact blockFault_of_readOption split (statement_eq_option_iff.mp means) unread
  | case11 stop cursor known line here name means choices close found ih =>
      rw [readScope_option here means found, Logged.outcome_map, map_eq_error_iff] at failed
      exact ih failed
  | case12 stop cursor known line here means other unread =>
      rw [readScope_choices_error here means unread] at failed
      obtain rfl := Except.error.inj failed
      obtain ⟨before, after, split, rfl⟩ := split_of_before? here
      exact blockFault_of_scanBlock names split (statement_eq_choices_iff.mp means) unread
  | case13 stop cursor known line here means block found ihBranches ih =>
      rw [readScope_choices here means found, Logged.outcome_bind, bind_eq_error_iff] at failed
      rcases failed with failedBranches | ⟨⟨branches, later⟩, -, failed⟩
      · exact blockFault_of_readBranches
          (fun branch member known => ihBranches branch member known) failedBranches
      · rw [Logged.outcome_map, map_eq_error_iff] at failed
        exact ih later failed

end Line

-----------------------------------------------------------------------------------------
-- Main statement
-----------------------------------------------------------------------------------------

namespace Script

/-- The lines of a script are decoded to these, which are numbered from 1. -/
structure DecodesTo (texts : List String) (lines : List Line) : Prop where
  decoded : Line.decodeAll (((texts.map trimmed).zipIdx 1).map Prod.swap) = .ok lines
  numbers : lines.map Line.number = List.range' 1 texts.length

/-- A line is the first one whose tags are at fault. -/
inductive LineFault (texts : List String) : ScriptError → Prop where
  | intro {before text after error} (split : texts = before ++ text :: after)
    (first : ∀ earlier ∈ before, Line.WellTagged (trimmed earlier).toList)
    (fault : Line.TagFault (before.length + 1) (trimmed text) error)
    : LineFault texts error

/-- The fault is one of the script: there are no lines, or a line has faulty tags, or, where all
lines can be decoded, a header has no name, or, where all have one, a block is at fault.
-/
inductive Justified (texts : List String) : ScriptError → Prop where
  | empty (none : texts = []) : Justified texts .empty
  | line {error} (fault : LineFault texts error) : Justified texts error
  | header {lines error} (decodes : DecodesTo texts lines) (fault : Line.HeaderFault lines error)
    : Justified texts error
  | block {lines error} (decodes : DecodesTo texts lines)
    (named : ∀ line ∈ lines, ¬ line.Nameless) (fault : Line.BlockFault lines error)
    : Justified texts error

theorem decodesTo_of_decodeAll {texts : List String} {lines : List Line}
    (decoded : Line.decodeAll (((texts.map trimmed).zipIdx 1).map Prod.swap) = .ok lines)
    : DecodesTo texts lines :=
  ⟨decoded, by rw [Line.numbers_of_decodeAll decoded, numbers_lines]⟩

/-- Every line is decoded under some number. -/
theorem exists_numbered {texts : List String} {text : String} (member : text ∈ texts)
    : ∃ number, (number, trimmed text) ∈ ((texts.map trimmed).zipIdx 1).map Prod.swap := by
  have kept : (((texts.map trimmed).zipIdx 1).map Prod.swap).map Prod.snd = texts.map trimmed := by
    rw [List.map_map]
    exact List.zipIdx_map_fst 1 (texts.map trimmed)
  have shown : trimmed text ∈ texts.map trimmed := List.mem_map_of_mem member
  rw [← kept] at shown
  obtain ⟨⟨number, _⟩, numbered, rfl⟩ := List.mem_map.mp shown
  exact ⟨number, numbered⟩

/-- The lines before a line that is decoded are decoded before it, and its number is that of the
lines up to it.
-/
theorem split_numbered {texts : List String} {before after : List (Nat × String)}
    {entry : Nat × String}
    (split : ((texts.map trimmed).zipIdx 1).map Prod.swap = before ++ entry :: after)
    : ∃ start text rest,
        texts = start ++ text :: rest
        ∧ before = ((start.map trimmed).zipIdx 1).map Prod.swap
        ∧ entry = (start.length + 1, trimmed text) := by
  obtain ⟨front, back, numbered, rfl, entries⟩ := List.map_eq_append_iff.mp split
  obtain ⟨numberedText, others, rfl, rfl, -⟩ := List.map_eq_cons_iff.mp entries
  obtain ⟨shown, more, shownAll, rfl, counted⟩ := List.zipIdx_eq_append_iff.mp numbered
  obtain ⟨one, last, rfl, rfl, -⟩ := List.zipIdx_eq_cons_iff.mp counted.symm
  obtain ⟨start, tail, rfl, rfl, shownTail⟩ := List.map_eq_append_iff.mp shownAll
  obtain ⟨text, rest, rfl, rfl, -⟩ := List.map_eq_cons_iff.mp shownTail
  exact ⟨start, text, rest, rfl, rfl, by simp [Nat.add_comm 1]⟩

/-- Decoding fails for the first line whose tags are at fault. -/
theorem lineFault_of_decodeAll {texts : List String} {error : ScriptError}
    (failed : Line.decodeAll (((texts.map trimmed).zipIdx 1).map Prod.swap) = .error error)
    : LineFault texts error := by
  obtain ⟨before, entry, after, split, each, refused⟩ := exists_first_of_mapM_eq_error failed
  obtain ⟨start, text, rest, rfl, rfl, rfl⟩ := split_numbered split
  refine .intro rfl (fun earlier member => ?_) (Line.decode_eq_error_iff.mp refused)
  obtain ⟨number, numbered⟩ := exists_numbered member
  exact Line.exists_decode_iff.mp (each (number, trimmed earlier) numbered)

theorem DecodesTo.wellTagged {texts : List String} {lines : List Line}
    (decodes : DecodesTo texts lines)
    : ∀ text ∈ texts, Line.WellTagged (trimmed text).toList := by
  intro text member
  obtain ⟨number, numbered⟩ := exists_numbered member
  exact Line.exists_decode_iff.mp
    (exists_of_mapM_eq_ok decodes.decoded (number, trimmed text) numbered)

theorem DecodesTo.fewTags {texts : List String} {lines : List Line}
    (decodes : DecodesTo texts lines)
    : ∀ line ∈ lines, line.FewTags := by
  intro line member
  obtain ⟨_, -, decoded⟩ := (mem_iff_of_mapM_eq_ok decodes.decoded).mp member
  exact Line.fewTags_of_decode decoded

theorem outcome_compile_of_error {texts : List String} {error : ScriptError}
    (failed : Line.decodeAll (((texts.map trimmed).zipIdx 1).map Prod.swap) = .error error)
    : (compile texts).outcome = .error error := by
  rw [compile, Logged.outcome_bind, Logged.outcome_ofExcept, failed]
  rfl

theorem DecodesTo.outcome_compile {texts : List String} {lines : List Line}
    (decodes : DecodesTo texts lines)
    : (compile texts).outcome = (Line.compile lines).outcome := by
  rw [compile, Logged.outcome_bind, Logged.outcome_ofExcept, decodes.decoded]
  rfl

/-- Lines that are decoded fail to be compiled for a fault of theirs, by cases on the pass that
reports it.
-/
theorem DecodesTo.justified {texts : List String} {lines : List Line} {error : ScriptError}
    (decodes : DecodesTo texts lines) (failed : (Line.compile lines).outcome = .error error)
    : Justified texts error := by
  by_cases none : lines = []
  · subst none
    rw [Line.compile_nil] at failed
    obtain rfl := Except.error.inj failed
    have noText : texts.length = 0 := by simpa using (congrArg List.length decodes.numbers).symm
    exact .empty (List.length_eq_zero_iff.mp noText)
  · rw [Line.outcome_compile none, bind_eq_error_iff] at failed
    rcases failed with undeclared | ⟨declared, names, unread⟩
    · exact .header decodes (Line.headerFault_of_optionNames decodes.fewTags undeclared)
    · have fault := Line.blockFault_of_readScope decodes.fewTags names (map_eq_error_iff.mp unread)
      exact .block decodes (Line.not_nameless_of_optionNames decodes.fewTags names) fault

/-- Every fault that compiling reports is one of the script. A line with faulty tags is reported
whenever there is one, and otherwise a header without a name is.
-/
theorem compile_justified (texts : List String)
    : (∀ error, (compile texts).outcome = .error error → Justified texts error)
      ∧ (∀ text ∈ texts,
          ¬ Line.WellTagged (trimmed text).toList
          → ∃ error, LineFault texts error ∧ (compile texts).outcome = .error error)
      ∧ (∀ lines,
          DecodesTo texts lines
          → ∀ line ∈ lines,
              line.Nameless
              → ∃ error,
                  Line.HeaderFault lines error ∧ (compile texts).outcome = .error error) := by
  refine ⟨fun error failed => ?_, fun text member illTagged => ?_,
    fun lines decodes line member nameless => ?_⟩
  · cases decoded : Line.decodeAll (((texts.map trimmed).zipIdx 1).map Prod.swap) with
    | ok lines =>
        have decodes := decodesTo_of_decodeAll decoded
        exact decodes.justified (decodes.outcome_compile ▸ failed)
    | error other =>
        obtain rfl := Except.error.inj (failed.symm.trans (outcome_compile_of_error decoded))
        exact .line (lineFault_of_decodeAll decoded)
  · cases decoded : Line.decodeAll (((texts.map trimmed).zipIdx 1).map Prod.swap) with
    | ok lines => exact absurd ((decodesTo_of_decodeAll decoded).wellTagged text member) illTagged
    | error error => exact ⟨error, lineFault_of_decodeAll decoded, outcome_compile_of_error decoded⟩
  · cases declared : Line.optionNames lines with
    | ok names =>
        exact absurd nameless
          (Line.not_nameless_of_optionNames decodes.fewTags declared line member)
    | error error =>
        refine ⟨error, Line.headerFault_of_optionNames decodes.fewTags declared, ?_⟩
        rw [decodes.outcome_compile, Line.outcome_compile (List.ne_nil_of_mem member), declared]
        rfl

/-- A script whose choices block is never closed: the closing tag on the last line is that of an
option block inside it.
-/
def unclosed : List String :=
  ["<option>pick", "<p>One", "</>", "<choices>", "<pick,1>", "<option>again", "<a>Two", "</>"]

/-- The block that is never closed is named, and so are a line without tags and a header without a
name, whatever follows them.
-/
theorem faulty_scripts_justified
    : ((compile unclosed).outcome = .error (.unterminatedChoices 4)
        ∧ Justified unclosed (.unterminatedChoices 4))
      ∧ (∃ error,
          LineFault ["<option>", "untagged"] error
          ∧ (compile ["<option>", "untagged"]).outcome = .error error)
      ∧ ∃ error,
          Line.HeaderFault [⟨1, ["choices"], ""⟩, ⟨2, ["option"], ""⟩] error
          ∧ (compile ["<choices>", "<option>"]).outcome = .error error := by
  have unterminated : (compile unclosed).outcome = .error (.unterminatedChoices 4) := by
    decide +kernel
  have refused : Line.decode 2 (trimmed "untagged") = .error (.missingTag 2 "untagged") := by
    decide +kernel
  have illTagged : ¬ Line.WellTagged (trimmed "untagged").toList := by
    intro wellTagged
    obtain ⟨line, decoded⟩ : ∃ line, Line.decode 2 (trimmed "untagged") = .ok line :=
      Line.exists_decode_iff.mpr wellTagged
    cases refused.symm.trans decoded
  have decodes : DecodesTo ["<choices>", "<option>"]
      [⟨1, ["choices"], ""⟩, ⟨2, ["option"], ""⟩] :=
    decodesTo_of_decodeAll (by decide +kernel)
  exact ⟨⟨unterminated, (compile_justified unclosed).1 _ unterminated⟩,
    (compile_justified _).2.1 "untagged" (by simp) illTagged,
    (compile_justified _).2.2 _ decodes ⟨2, ["option"], ""⟩ (by simp) ⟨rfl, rfl⟩⟩

end Script

end Dialogue
