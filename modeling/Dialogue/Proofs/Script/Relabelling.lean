import Dialogue.Proofs.Script.Agreement

/-! The tags of a choice that has a text. An option block goes by the text alone, but the options
are declared and the blocks around are closed by the first tags of all lines. So another tag makes
no difference if it declares the same options and opens as many blocks.
-/

namespace Dialogue

open Relation (ReflTransGen)

namespace Line

/-- The line gives a choice by its text, and the other line has the same number and text and closes
no block.
-/
structure Relabels (line other : Line) : Prop where
  number : other.number = line.number
  content : other.content = line.content
  filled : line.content ≠ ""
  closesNot : other.isTerminator = false

/-- The line at an index is a choice of the option block that is found at a moment. -/
def Moment.Offers (lines : List Line) (moment : Moment) (index : Nat) : Prop :=
  ∃ name choices close,
    moment.FindsOption lines name choices close ∧ moment.cursor < index ∧ index < close

/-- What is read from a moment on is read from other lines as well. -/
def ReadsAlike (lines others : List Line) (declared : List String) (moment : Moment) : Prop :=
  ∀ reading,
    Reads lines declared moment.stop moment.cursor moment.known reading
    → Reads others declared moment.stop moment.cursor moment.known reading

theorem Relabels.choice {line other : Line} (relabels : line.Relabels other)
    : other.choice = line.choice := by
  have filled : line.content.isEmpty = false := by simpa using relabels.filled
  simp [Line.choice, relabels.content, filled]

-----------------------------------------------------------------------------------------
-- One line in the place of another
-----------------------------------------------------------------------------------------

section Set

variable {lines : List Line} {declared : List String} {index low high : Nat} {old new : Line}

theorem agreeOn_set (outside : index < low ∨ high ≤ index)
    : AgreeOn lines (lines.set index new) low high := by
  intro other after before
  rw [List.getElem?_set_ne (by omega)]

theorem numberAt_set (here : lines[index]? = some old) (same : new.number = old.number)
    (other : Nat)
    : numberAt (lines.set index new) other = numberAt lines other := by
  obtain ⟨inside, rfl⟩ := List.getElem?_eq_some_iff.mp here
  unfold numberAt
  rcases Nat.decEq index other with apart | rfl
  · rw [List.getElem?_set_ne apart]
  · rw [List.getElem?_set_self inside, here, Option.map_some, Option.map_some, same]

/-- A scope stops alike on the lines with the new one. -/
theorem endsAlike_set (here : lines[index]? = some old) (same : new.number = old.number)
    (stop : Nat) (reading : Reading)
    : EndsAlike lines (lines.set index new) stop stop reading :=
  Or.inr ⟨rfl, numberAt_set here same _⟩

theorem before?_set {stop cursor : Nat} {line : Line} (before : cursor < index)
    (here : before? lines stop cursor = some line)
    : before? (lines.set index new) stop cursor = some line := by
  rw [← here]
  unfold before?
  rw [List.getElem?_set_ne (Nat.ne_of_gt before)]

/-- Every line has one in its place: itself, or the new one for the old one. -/
theorem exists_getElem?_set (new : Line) (here : lines[index]? = some old) {middle : Nat}
    {line : Line} (there : lines[middle]? = some line)
    : ∃ other,
        (lines.set index new)[middle]? = some other
        ∧ (other = line ∨ (middle = index ∧ line = old ∧ other = new)) := by
  rcases Nat.decEq index middle with apart | rfl
  · exact ⟨line, by rw [List.getElem?_set_ne apart, there], Or.inl rfl⟩
  · obtain rfl := Option.some.inj (here.symm.trans there)
    have inside := (List.getElem?_eq_some_iff.mp here).1
    exact ⟨new, List.getElem?_set_self inside, Or.inr ⟨rfl, rfl, rfl⟩⟩

end Set

-----------------------------------------------------------------------------------------
-- The block of the choice
-----------------------------------------------------------------------------------------

section Offers

variable {lines : List Line} {declared : List String} {index opened : Nat} {old new : Line}
  {moment : Moment} {block : Block}

/-- A choice of an option block does not close it. -/
theorem Moment.Offers.closesNot (offers : moment.Offers lines index)
    (here : lines[index]? = some old)
    : old.isTerminator = false := by
  obtain ⟨name, choices, close, ⟨-, found⟩, after, before⟩ := offers
  obtain ⟨first, -⟩ := choicesFrom_eq_some_iff.mp (choicesFrom_of_readOption found)
  exact first.before index old after before here

/-- A choice stands behind the header of its block and inside of the scope of the block. -/
theorem Moment.Offers.bounds (offers : moment.Offers lines index)
    (contained : Contained lines declared moment.stop moment.cursor)
    : moment.cursor < index ∧ index < moment.stop := by
  obtain ⟨name, choices, close, ⟨⟨header, there, means⟩, found⟩, after, before⟩ := offers
  obtain ⟨inside, -⟩ := contained.after_option there (isOpening_of_option means) found
  exact ⟨after, Nat.lt_trans before inside⟩

/-- The option block is read in the same way with another tag on the choice, and so is what stands
behind it.
-/
theorem Moment.Offers.readsAlike (offers : moment.Offers lines index)
    (contained : Contained lines declared moment.stop moment.cursor)
    (here : lines[index]? = some old) (relabels : old.Relabels new)
    : ReadsAlike lines (lines.set index new) declared moment := by
  have closesNot := offers.closesNot here
  obtain ⟨name, choices, close, ⟨⟨header, there, means⟩, found⟩, after, before⟩ := offers
  intro reading reads
  obtain ⟨rest, tail, rfl⟩ := reads.of_option there means found
  have alike : OfferedAlike lines (lines.set index new) (moment.cursor + 1) close := by
    intro middle line _ _ found
    obtain ⟨other, again, same⟩ := exists_getElem?_set new here found
    rcases same with rfl | ⟨-, rfl, rfl⟩
    · exact ⟨_, again, rfl, rfl⟩
    · exact ⟨_, again, relabels.closesNot.trans closesNot.symm, relabels.choice⟩
  obtain ⟨-, later⟩ := contained.after_option there (isOpening_of_option means) found
  have tailAgain := tail.of_agreeOn later (agreeOn_set (Or.inl (Nat.lt_succ_of_lt before)))
    (endsAlike_set here relabels.number _ _)
  exact .option (before?_set after there) means (readOption_of_alike found alike) tailAgain

-----------------------------------------------------------------------------------------
-- Blocks around the choice
-----------------------------------------------------------------------------------------

/-- A block around the option block sees the choice inside of an inner block. -/
theorem Moment.Offers.surplus_pos (offers : moment.Offers lines index)
    (found : scanBlock lines declared opened (opened + 1) = .ok block)
    (behind : opened + 1 + 1 ≤ moment.cursor) (inside : index < block.close)
    : 0 < surplus lines (opened + 1 + 1) index := by
  obtain ⟨name, choices, close, ⟨⟨header, there, means⟩, offered⟩, after, before⟩ := offers
  obtain ⟨first, -⟩ := choicesFrom_eq_some_iff.mp (choicesFrom_of_readOption offered)
  obtain ⟨_, _, rest, -, -, scanned, rfl⟩ := labels_of_scanBlock found
  obtain ⟨-, -, deep⟩ := (scans_of_scanFrom scanned).closesAt
  have outer : 0 ≤ surplus lines (opened + 1 + 1) moment.cursor := by
    rcases Nat.eq_or_lt_of_le behind with same | further
    · rw [← same, surplus_self]
    · have upTo : index < rest.close := inside
      have held := deep (moment.cursor - 1) (by omega) (by omega)
      rw [Nat.sub_add_cancel (by omega)] at held
      omega
  have inner : 0 ≤ surplus lines (moment.cursor + 1) index :=
    surplus_nonneg fun middle line low high here =>
      first.before middle line low (Nat.lt_trans high before) here
  rw [surplus_append behind (Nat.le_of_lt after), surplus_eq (of_before? there).2 after,
    shift_of_isOpening (isOpening_of_option means)]
  omega

/-- A block around the option block is found in the same extent if the other tag opens a block as
the tag of the choice does.
-/
theorem Moment.Offers.scanBlock_set (offers : moment.Offers lines index)
    (here : lines[index]? = some old) (relabels : old.Relabels new)
    (opens : new.isOpening = old.isOpening)
    (found : scanBlock lines declared opened (opened + 1) = .ok block)
    (behind : opened + 1 + 1 ≤ moment.cursor) (inside : index < block.close)
    : scanBlock (lines.set index new) declared opened (opened + 1) = .ok block := by
  have closesNot := offers.closesNot here
  have deep := offers.surplus_pos found behind inside
  have after : moment.cursor < index := by
    obtain ⟨_, _, _, -, after, -⟩ := offers
    exact after
  refine scanBlock_of_alike found (List.getElem?_set_ne (by omega)) ?_ opened
  intro middle line low high there
  obtain ⟨other, again, same⟩ := exists_getElem?_set new here there
  rcases same with rfl | ⟨rfl, rfl, rfl⟩
  · exact ⟨_, again, rfl, rfl, fun _ => rfl⟩
  · refine ⟨_, again, opens, relabels.closesNot.trans closesNot.symm, fun shallow => ?_⟩
    exact absurd shallow (by omega)

end Offers

-----------------------------------------------------------------------------------------
-- Moments in front of the choice
-----------------------------------------------------------------------------------------

section Moments

variable {lines : List Line} {declared : List String} {index : Nat} {old new : Line}
  {moment next target : Moment}

/-- Bodies are read in the same way with another line in the body of one branch, if that body is
read in the same way with the options that are known in front of it. By induction on the branches
in front of it.
-/
theorem ReadsBranches.set_body {earlier rest : List Branch} {branch : Branch} {low close : Nat}
    {known later last : List String} {front whole : Branches}
    (before : ReadsBranches lines declared earlier known front later)
    (bodies : ReadsBranches lines declared (earlier ++ branch :: rest) known whole last)
    (successive : Successive lines declared close low (earlier ++ branch :: rest))
    (here : lines[index]? = some old) (same : new.number = old.number)
    (after : branch.start ≤ index) (upTo : index < branch.stop)
    (body : ReadsAlike lines (lines.set index new) declared ⟨branch.stop, branch.start, later⟩)
    : ReadsBranches (lines.set index new) declared (earlier ++ branch :: rest) known whole
        last := by
  induction earlier generalizing known front whole low with
  | nil =>
      obtain ⟨-, -, successiveRest⟩ := successive
      cases before
      cases bodies with
      | cons read tail =>
          exact .cons (body _ read) (tail.of_agreeOn successiveRest (agreeOn_set (Or.inl upTo)))
  | cons first more ih =>
      obtain ⟨-, stops, successiveMore⟩ := successive
      have apart : first.stop ≤ branch.label := (successiveMore.ordered.1 branch (by simp)).1
      cases before with
      | cons read front =>
          cases bodies with
          | cons again tail =>
              obtain rfl := read.unique again
              obtain ⟨-, inside, -⟩ := read.sourceLines stops.contained
              have outside := Nat.le_trans inside (Nat.le_trans apart (Nat.le_of_succ_le after))
              have readAgain := read.of_agreeOn stops.contained (agreeOn_set (Or.inr outside))
                (endsAlike_set here same _ _)
              exact .cons readAgain (ih front tail successiveMore)

/-- A block is read in the same way with another line in one of its bodies, if the block is found in
the same extent and the body is read in the same way.
-/
theorem readsAlike_of_branch {block : Block} {earlier rest : List Branch} {branch : Branch}
    {front : Branches} {later : List String}
    (contained : Contained lines declared moment.stop moment.cursor)
    (finds : moment.FindsBlock lines declared block)
    (split : block.branches = earlier ++ branch :: rest)
    (before : ReadsBranches lines declared earlier moment.known front later)
    (here : lines[index]? = some old) (same : new.number = old.number)
    (after : branch.start ≤ index) (upTo : index < branch.stop)
    (again : scanBlock (lines.set index new) declared moment.cursor (moment.cursor + 1)
      = .ok block)
    (body : ReadsAlike lines (lines.set index new) declared ⟨branch.stop, branch.start, later⟩)
    : ReadsAlike lines (lines.set index new) declared moment := by
  obtain ⟨⟨line, there, means⟩, found⟩ := finds
  have successive := successive_of_scanBlock found
  obtain ⟨label, -, inside⟩ := successive.ordered.1 branch (by simp [split])
  intro reading reads
  obtain ⟨branches, last, onward, bodies, tail, rfl⟩ := reads.of_choices there means found
  have bodiesAgain : ReadsBranches (lines.set index new) declared block.branches moment.known
      branches last := by
    rw [split] at bodies successive ⊢
    exact before.set_body bodies successive here same after upTo body
  have onwardContained := (contained.after_choices there (isOpening_of_choices means) found).2
  have behind : index < block.reconverge :=
    Nat.lt_succ_of_lt (Nat.lt_of_lt_of_le upTo inside)
  have forward : moment.cursor < index :=
    Nat.lt_of_lt_of_le label (Nat.le_of_succ_le after)
  have tailAgain := tail.of_agreeOn onwardContained (agreeOn_set (Or.inl behind))
    (endsAlike_set here same _ _)
  exact .choices (before?_set forward there) means again bodiesAgain tailAgain

/-- A moment in front of the option block is read in the same way with another tag on the choice if
the moment that it leads to is. By cases on what the call goes on with.
-/
theorem Leads.readsAlike (leads : Leads lines declared moment next)
    (contained : Contained lines declared moment.stop moment.cursor)
    (path : ReflTransGen (Leads lines declared) next target)
    (offers : target.Offers lines index) (here : lines[index]? = some old)
    (relabels : old.Relabels new)
    (opens : new.isOpening = old.isOpening ∨ target.stop = lines.length)
    (alike : ReadsAlike lines (lines.set index new) declared next)
    : ReadsAlike lines (lines.set index new) declared moment := by
  obtain ⟨containedNext, forward, -⟩ := leads.contained contained
  obtain ⟨containedTarget, behind, within⟩ := containedNext.along path
  obtain ⟨after, upTo⟩ := offers.bounds containedTarget
  have before : moment.cursor < index := by omega
  have agree : AgreeOn lines (lines.set index new) moment.cursor next.cursor :=
    agreeOn_set (Or.inr (by omega))
  cases leads with
  | line means goesOn =>
      obtain ⟨line, there, means⟩ := means
      intro reading reads
      rcases goesOn with silent | ⟨shown, shows⟩
      · exact .silent (before?_set before there) means silent
          (alike _ (reads.of_silent there means silent))
      · obtain ⟨rest, tail, rfl⟩ := reads.of_beat there means shows
        exact .beat (before?_set before there) means shows (alike _ tail)
  | option finds =>
      obtain ⟨⟨line, there, means⟩, found⟩ := finds
      intro reading reads
      obtain ⟨rest, tail, rfl⟩ := reads.of_option there means found
      exact .option (before?_set before there) means (agree.readOption found) (alike _ tail)
  | @branch block earlier branch rest front later finds split bodies =>
      obtain ⟨each, -⟩ := (successive_of_scanBlock finds.2).ordered
      obtain ⟨label, stops, upToClose⟩ := each branch (by simp [split])
      have deeper : moment.cursor + 1 + 1 ≤ target.cursor :=
        Nat.le_trans (Nat.succ_le_succ label) behind
      have same : new.isOpening = old.isOpening := by
        rcases opens with same | top
        · exact same
        · exact absurd stops.bounds.2 (Nat.not_lt.mpr (top ▸ within))
      have again := offers.scanBlock_set here relabels same finds.2 deeper
        (Nat.lt_of_lt_of_le upTo (Nat.le_trans within upToClose))
      exact readsAlike_of_branch contained finds split bodies here relabels.number
        (Nat.le_of_lt (Nat.lt_of_le_of_lt behind after)) (Nat.lt_of_lt_of_le upTo within) again
        alike
  | block finds bodies =>
      obtain ⟨⟨line, there, means⟩, found⟩ := finds
      intro reading reads
      obtain ⟨branches, last, rest, read, tail, rfl⟩ := reads.of_choices there means found
      obtain ⟨-, rfl⟩ := bodies.unique read
      have readAgain := read.of_agreeOn (successive_of_scanBlock found)
        (agree.within (Nat.le_succ _) (Nat.le_succ _))
      exact .choices (before?_set before there) means (agree.scanBlock found) readAgain
        (alike _ tail)

/-- So is every moment that leads to the option block, by induction on the path from its end. -/
theorem Contained.readsAlike (contained : Contained lines declared moment.stop moment.cursor)
    (path : ReflTransGen (Leads lines declared) moment target)
    (offers : target.Offers lines index) (here : lines[index]? = some old)
    (relabels : old.Relabels new)
    (opens : new.isOpening = old.isOpening ∨ target.stop = lines.length)
    : ReadsAlike lines (lines.set index new) declared moment := by
  induction path using ReflTransGen.head_induction_on with
  | refl => exact offers.readsAlike contained here relabels
  | head leads path ih =>
      exact leads.readsAlike contained path offers here relabels opens
        (ih (leads.contained contained).1)

end Moments

-----------------------------------------------------------------------------------------
-- Main statement
-----------------------------------------------------------------------------------------

/-- Another tag on a choice leaves the outline as it is, if the same options are declared and the
other tag opens a block as the tag of the choice does or the option block stands in no branch.
-/
theorem Outlines.set {lines : List Line} {declared : List String} {moment : Moment} {index : Nat}
    {old new : Line} {scope : Scope} (outlines : Outlines lines scope)
    (reached : Reached lines declared moment) (offers : moment.Offers lines index)
    (here : lines[index]? = some old) (relabels : old.Relabels new)
    (opens : new.isOpening = old.isOpening ∨ moment.stop = lines.length)
    (few : ∀ line ∈ lines ++ lines.set index new, line.FewTags)
    (options : ∀ name, Declares (lines.set index new) name ↔ Declares lines name)
    : Outlines (lines.set index new) scope := by
  obtain @⟨_, reading, someLine, names, reads⟩ := outlines
  obtain rfl := Except.ok.inj (reached.names.symm.trans names)
  have named := not_nameless_of_optionNames
    (fun line member => few line (List.mem_append_left _ member)) names
  obtain ⟨others, again⟩ : ∃ others, optionNames (lines.set index new) = .ok others := by
    refine exists_optionNames (fun line member => few line (List.mem_append_right _ member)) ?_
    intro line member nameless
    rcases List.mem_or_eq_of_mem_set member with before | rfl
    · exact named line before nameless
    · exact relabels.filled (relabels.content.symm.trans nameless.2)
  have same (name : String) : name ∈ others ↔ name ∈ declared :=
    (mem_iff_of_optionNames again).trans
      ((options name).trans (mem_iff_of_optionNames names).symm)
  have start := contained_whole lines declared
  have alike := Contained.readsAlike start reached.path offers here relabels opens
  have readsSet := (alike _ reads).of_names same
  have someOther : lines.set index new ≠ [] := by simpa using someLine
  rw [← List.length_set (i := index) (a := new)] at readsSet
  exact .intro someOther again readsSet

end Line

namespace Script

/-- A choice with a text can be given another tag without any difference to the graph, if the same
options are declared and the other tag opens a block as the tag of the choice does or the option
block stands in no branch.
-/
theorem compile_relabel {texts others : List String} {lines : List Line} {declared : List String}
    {moment : Line.Moment} {index : Nat} {old new : Line} {graph : Graph}
    (compiled : (compile texts).outcome = .ok graph) (decodes : DecodesTo texts lines)
    (decodesOther : DecodesTo others (lines.set index new))
    (reached : Line.Reached lines declared moment) (offers : moment.Offers lines index)
    (here : lines[index]? = some old) (relabels : old.Relabels new)
    (opens : new.isOpening = old.isOpening ∨ moment.stop = lines.length)
    (options : ∀ name, Line.Declares (lines.set index new) name ↔ Line.Declares lines name)
    : (compile others).outcome = .ok graph := by
  rw [decodes.outcome_compile] at compiled
  rw [decodesOther.outcome_compile]
  obtain ⟨scope, outlines, same⟩ := Line.compile_eq_ok_iff.mp compiled
  have few : ∀ line ∈ lines ++ lines.set index new, line.FewTags :=
    List.forall_mem_append.mpr ⟨decodes.fewTags, decodesOther.fewTags⟩
  have outlinesOther := outlines.set reached offers here relabels opens few options
  exact Line.compile_eq_ok_iff.mpr ⟨scope, outlinesOther, same⟩

/-- A script with an option block in a branch. -/
def hostTexts : List String :=
  ["<option>pick", "<p>One", "</>", "<choices>", "<pick,1>", "<option>mood", "<m>Fine", "</>",
    "<choices>", "<mood,1>", "<END>", "</>", "<pick,2>", "<A>Two", "</>"]

theorem host_decodes : DecodesTo hostTexts Line.hostLines :=
  decodesTo_of_decodeAll (by decide +kernel)

theorem exists_host_graph : ∃ graph, (compile hostTexts).outcome = .ok graph := by
  rw [host_decodes.outcome_compile]
  have accepted : (Line.compile Line.hostLines).outcome.toOption.isSome = true := by decide +kernel
  cases compiled : (Line.compile Line.hostLines).outcome with
  | ok graph => exact ⟨graph, rfl⟩
  | error error => simp [compiled, Except.toOption] at accepted

theorem host_reached_mood : Line.Reached Line.hostLines ["pick", "mood"] ⟨12, 5, ["pick"]⟩ := by
  have pick : Line.Moment.FindsOption Line.hostLines ⟨15, 0, []⟩ "pick" ["One"] 2 :=
    ⟨⟨_, rfl, by decide +kernel⟩, by decide +kernel⟩
  have block
      : Line.Moment.FindsBlock Line.hostLines ["pick", "mood"] ⟨15, 3, ["pick"]⟩
          ⟨[⟨4, ⟨"pick", 1⟩⟩, ⟨12, ⟨"pick", 2⟩⟩], 14⟩ :=
    ⟨⟨_, rfl, by decide +kernel⟩, by decide +kernel⟩
  have first
      : Block.branches ⟨[⟨4, ⟨"pick", 1⟩⟩, ⟨12, ⟨"pick", 2⟩⟩], 14⟩
        = [] ++ (⟨⟨"pick", 1⟩, 4, 12⟩ : Branch) :: [⟨⟨"pick", 2⟩, 12, 14⟩] :=
    rfl
  exact ⟨by decide, by decide +kernel, .head (.option pick) (.single (.branch block first .nil))⟩

theorem host_offers_fine : Line.Moment.Offers Line.hostLines ⟨12, 5, ["pick"]⟩ 6 :=
  ⟨"mood", ["Fine"], 7, ⟨⟨_, rfl, by decide +kernel⟩, by decide +kernel⟩, by decide, by decide⟩

/-- The choice in the branch can be given two tags, and the one outside of it even a tag that opens
blocks.
-/
theorem host_compile_relabel
    : ∃ graph,
        (compile hostTexts).outcome = .ok graph
        ∧ (compile (hostTexts.set 6 "<pick><1>Fine")).outcome = .ok graph
        ∧ (compile (hostTexts.set 1 "<choices>One")).outcome = .ok graph := by
  obtain ⟨graph, compiled⟩ := exists_host_graph
  have inBranch : DecodesTo (hostTexts.set 6 "<pick><1>Fine")
      (Line.hostLines.set 6 ⟨7, ["pick", "1"], "Fine"⟩) :=
    decodesTo_of_decodeAll (by decide +kernel)
  have outside : DecodesTo (hostTexts.set 1 "<choices>One")
      (Line.hostLines.set 1 ⟨2, ["choices"], "One"⟩) :=
    decodesTo_of_decodeAll (by decide +kernel)
  have reachedPick : Line.Reached Line.hostLines ["pick", "mood"] ⟨15, 0, []⟩ :=
    ⟨by decide, by decide +kernel, .refl⟩
  have offersOne : Line.Moment.Offers Line.hostLines ⟨15, 0, []⟩ 1 :=
    ⟨"pick", ["One"], 2, ⟨⟨_, rfl, by decide +kernel⟩, by decide +kernel⟩, by decide, by decide⟩
  refine ⟨graph, compiled, ?_, ?_⟩
  · exact compile_relabel compiled host_decodes inBranch host_reached_mood host_offers_fine rfl
      ⟨rfl, rfl, by decide, by decide⟩ (Or.inl (by decide))
      (by simp [Line.Declares, Line.Heads, Line.hostLines])
  · exact compile_relabel compiled host_decodes outside reachedPick offersOne rfl
      ⟨rfl, rfl, by decide, by decide⟩ (Or.inr rfl)
      (by simp [Line.Declares, Line.Heads, Line.hostLines])

/-- With a tag that opens blocks, the choice in the branch takes the closing tag of the block around
the branch, so the script is refused.
-/
theorem host_relabelled_refused
    : (∃ graph, (compile hostTexts).outcome = .ok graph)
      ∧ DecodesTo hostTexts Line.hostLines
      ∧ DecodesTo (hostTexts.set 6 "<choices>Fine")
          (Line.hostLines.set 6 ⟨7, ["choices"], "Fine"⟩)
      ∧ Line.Reached Line.hostLines ["pick", "mood"] ⟨12, 5, ["pick"]⟩
      ∧ Line.Moment.Offers Line.hostLines ⟨12, 5, ["pick"]⟩ 6
      ∧ Line.Relabels ⟨7, ["m"], "Fine"⟩ ⟨7, ["choices"], "Fine"⟩
      ∧ (compile (hostTexts.set 6 "<choices>Fine")).outcome = .error (.unterminatedChoices 4) :=
  ⟨exists_host_graph, host_decodes, decodesTo_of_decodeAll (by decide +kernel), host_reached_mood,
    host_offers_fine, ⟨rfl, rfl, by decide, by decide⟩, by decide +kernel⟩

end Script

end Dialogue
