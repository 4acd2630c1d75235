import Dialogue.Proofs.Script.SourceOrder

/-! What the reading of a branch depends on: the lines from its label up to where its body stops.
The blocks inside of the body are looked for in all lines behind, but they close before the body
stops, so the lines from there on make no difference.
-/

namespace Dialogue

/-- What comes after a computation makes a difference only for the value that it succeeds with, by
cases on its outcome.
-/
theorem Logged.bind_congr_of_outcome {ε α β : Type} {first : Logged ε α}
    {next other : α → Logged ε β}
    (same : ∀ value, first.outcome = .ok value → next value = other value)
    : first >>= next = first >>= other := by
  obtain ⟨events, outcome⟩ := first
  cases outcome with
  | error error => rfl
  | ok value =>
      have result := same value rfl
      show Logged.bind _ next = Logged.bind _ other
      simp only [Logged.bind, result]

namespace Line

/-- Other lines agree with these from one index up to another. -/
def AgreeOn (lines others : List Line) (low high : Nat) : Prop :=
  ∀ index, low ≤ index → index < high → others[index]? = lines[index]?

section Agreement

variable {lines others : List Line} {low high index stop : Nat} {line : Line}

theorem AgreeOn.within (agree : AgreeOn lines others low high) {lower upper : Nat}
    (le : low ≤ lower) (le_high : upper ≤ high)
    : AgreeOn lines others lower upper :=
  fun index after before =>
    agree index (Nat.le_trans le after) (Nat.lt_of_lt_of_le before le_high)

theorem AgreeOn.numberAt (agree : AgreeOn lines others low high) (le : low ≤ index)
    (before : index < high)
    : numberAt others index = numberAt lines index := by
  simp only [Line.numberAt, agree index le before]

theorem AgreeOn.before? (agree : AgreeOn lines others low stop) (after : low < index)
    {found : Option Line} (here : before? lines stop index = found)
    : before? others stop index = found := by
  rw [← here]
  unfold Line.before?
  split
  · next before => exact agree index (Nat.le_of_lt after) before
  · rfl

end Agreement

-----------------------------------------------------------------------------------------
-- Blocks
-----------------------------------------------------------------------------------------

section Blocks

variable {lines others : List Line} {names : List String} {nested index cursor stop : Nat}

/-- Inside of an inner block a scan does not stop yet, by cases on its step. -/
theorem StopsAt.lt (h : StopsAt lines names (nested + 1) index stop) : index < stop := by
  cases h with
  | opening _ _ rest | closing _ _ rest | other _ _ _ _ rest => exact rest.bounds.1

/-- An option block goes by the lines before the body that it stands in stops, by induction on the
scan of the body.
-/
theorem StopsAt.choicesFrom_eq (h : StopsAt lines names (nested + 1) index stop)
    (agree : AgreeOn lines others index stop)
    : choicesFrom index (others.drop index) = choicesFrom index (lines.drop index) := by
  generalize deep : nested + 1 = depth at h
  induction h generalizing nested with
  | opening here opens rest ih =>
      have there := (agree _ (Nat.le_refl _) rest.bounds.1).trans here
      have later := ih (agree.within (Nat.le_succ _) (Nat.le_refl _)) rfl
      rw [drop_of_getElem? there, drop_of_getElem? here, choicesFrom, choicesFrom, later]
  | closing here closes rest =>
      have there := (agree _ (Nat.le_refl _) rest.bounds.1).trans here
      rw [drop_of_getElem? there, drop_of_getElem? here, choicesFrom, choicesFrom, if_pos closes,
        if_pos closes]
  | other here opensNot closesNot labelsNot rest ih =>
      have there := (agree _ (Nat.le_refl _) rest.bounds.1).trans here
      have later := ih (agree.within (Nat.le_succ _) (Nat.le_refl _)) deep
      rw [drop_of_getElem? there, drop_of_getElem? here, choicesFrom, choicesFrom, later]
  | close | label => cases deep

/-- Past a line that neither opens nor closes a block a scan goes on at the same depth, by cases on
whether the line is a label.
-/
theorem scanFrom_congr_other {line : Line} {rest more : List Line}
    (opensNot : line.isOpening = false) (closesNot : line.isTerminator = false)
    (same : scanFrom names nested (index + 1) rest = scanFrom names nested (index + 1) more)
    : scanFrom names nested index (line :: rest) = scanFrom names nested index (line :: more) := by
  cases nested <;> cases labels : line.branch? names <;>
    simp [scanFrom, opensNot, closesNot, labels, same]

/-- The scan of an inner block goes by the lines before the body that it stands in stops. By
induction on the scan of the body, which is always deeper than the inner one.
-/
theorem StopsAt.scanFrom_eq {outer inner : Nat} (h : StopsAt lines names (outer + 1) index stop)
    (deeper : inner ≤ outer) (agree : AgreeOn lines others index stop)
    : scanFrom names inner index (others.drop index)
        = scanFrom names inner index (lines.drop index) := by
  generalize deep : outer + 1 = depth at h
  induction h generalizing outer inner with
  | opening here opens rest ih =>
      have there := (agree _ (Nat.le_refl _) rest.bounds.1).trans here
      have later := agree.within (Nat.le_succ _) (Nat.le_refl _)
      rw [drop_of_getElem? there, drop_of_getElem? here, scanFrom_opening opens,
        scanFrom_opening opens, ih (Nat.succ_le_succ deeper) later (congrArg (· + 1) deep)]
  | closing here closes rest ih =>
      have there := (agree _ (Nat.le_refl _) rest.bounds.1).trans here
      have later := agree.within (Nat.le_succ _) (Nat.le_refl _)
      rw [drop_of_getElem? there, drop_of_getElem? here]
      cases inner with
      | zero => rw [scanFrom_terminator_zero closes, scanFrom_terminator_zero closes]
      | succ inner =>
          obtain ⟨middle, rfl⟩ := Nat.exists_eq_succ_of_ne_zero (by omega : outer ≠ 0)
          rw [scanFrom_terminator_succ closes, scanFrom_terminator_succ closes,
            ih (Nat.le_of_succ_le_succ deeper) later (Nat.succ.inj deep)]
  | other here opensNot closesNot _ rest ih =>
      have there := (agree _ (Nat.le_refl _) rest.bounds.1).trans here
      have later := agree.within (Nat.le_succ _) (Nat.le_refl _)
      rw [drop_of_getElem? there, drop_of_getElem? here,
        scanFrom_congr_other opensNot closesNot (ih deeper later deep)]
  | close | label => cases deep

section Opened

variable {line : Line} {low : Nat}

/-- Inside of a body, a line that opens a block takes the scan into an inner block. -/
theorem Contained.after_opening (contained : Contained lines names stop cursor)
    (inside : stop < lines.length) (here : before? lines stop cursor = some line)
    (opens : line.isOpening = true)
    : ∃ depth, StopsAt lines names (depth + 1) (cursor + 1) stop := by
  rcases contained with ⟨-, whole | ⟨depth, stops⟩⟩
  · omega
  · exact ⟨depth, stops.after_opening (of_before? here).2 opens⟩

theorem Contained.readOption_eq (contained : Contained lines names stop cursor)
    (inside : stop < lines.length) (here : before? lines stop cursor = some line)
    (opens : line.isOpening = true) (agree : AgreeOn lines others low stop) (after : low < cursor)
    (name : String)
    : readOption others cursor name = readOption lines cursor name := by
  obtain ⟨depth, inner⟩ := contained.after_opening inside here opens
  have number := agree.numberAt (Nat.le_of_lt after) (of_before? here).1
  have behind : low ≤ cursor + 1 := Nat.le_succ_of_le (Nat.le_of_lt after)
  have choices := inner.choicesFrom_eq (agree.within behind (Nat.le_refl _))
  rw [readOption, number, choices, readOption]

theorem Contained.scanBlock_eq (contained : Contained lines names stop cursor)
    (inside : stop < lines.length) (here : before? lines stop cursor = some line)
    (opens : line.isOpening = true) (agree : AgreeOn lines others low stop) (after : low < cursor)
    : scanBlock others names cursor (cursor + 1) = scanBlock lines names cursor (cursor + 1) := by
  obtain ⟨depth, inner⟩ := contained.after_opening inside here opens
  have number := agree.numberAt (Nat.le_of_lt after) (of_before? here).1
  have behind : low ≤ cursor + 1 := Nat.le_succ_of_le (Nat.le_of_lt after)
  have first := agree (cursor + 1) behind inner.lt
  obtain ⟨label, there⟩ : ∃ label, lines[cursor + 1]? = some label :=
    ⟨_, List.getElem?_eq_getElem (Nat.lt_trans inner.lt inside)⟩
  rw [there] at first
  simp only [scanBlock, number, there, first]
  cases labels : label.guard names with
  | error error => rfl
  | ok stated =>
      cases stated with
      | none => rfl
      | some guard =>
          obtain ⟨deeper, afterLabel⟩ := inner.after_label there labels
          have later := agree.within (Nat.le_succ_of_le behind) (Nat.le_refl stop)
          rw [afterLabel.scanFrom_eq (Nat.zero_le deeper) later]

end Opened

end Blocks

-----------------------------------------------------------------------------------------
-- Scopes
-----------------------------------------------------------------------------------------

section Scopes

variable {lines others : List Line} {declared known : List String} {low cursor stop opened : Nat}

/-- Branches are read alike if their bodies are and the lines that are named in reports agree. By
induction on their list.
-/
theorem readBranches_eq {branches : List Branch}
    (number : numberAt others opened = numberAt lines opened)
    (agree : ∀ branch ∈ branches, AgreeOn lines others branch.label branch.stop)
    (stops : ∀ branch ∈ branches, StopsAt lines declared 0 branch.start branch.stop)
    (each : ∀ branch ∈ branches, ∀ known,
      readScope others declared branch.stop branch.start known
        = readScope lines declared branch.stop branch.start known)
    : readBranches others opened branches
          (fun branch _ => readScope others declared branch.stop branch.start) known
        = readBranches lines opened branches
          (fun branch _ => readScope lines declared branch.stop branch.start) known := by
  induction branches generalizing known with
  | nil => rfl
  | cons branch rest ih =>
      obtain ⟨agreeBranch, agreeRest⟩ := List.forall_mem_cons.mp agree
      obtain ⟨stopsBranch, stopsRest⟩ := List.forall_mem_cons.mp stops
      obtain ⟨eachBranch, eachRest⟩ := List.forall_mem_cons.mp each
      simp only [readBranches, eachBranch, number, ih agreeRest stopsRest eachRest]
      apply Logged.bind_congr_of_outcome
      intro body read
      split
      · next early =>
          obtain ⟨after, -⟩ := (reads_of_readScope read).sourceLines stopsBranch.contained
          have start : branch.start = branch.label + 1 := rfl
          have last : numberAt others (body.cursor - 1) = numberAt lines (body.cursor - 1) :=
            agreeBranch.numberAt (by omega) (by omega)
          rw [last]
      · rfl

/-- The reading of a body depends on the lines from its label up to where it stops alone, by
induction on the lines that are left.
-/
theorem Contained.readScope_eq (contained : Contained lines declared stop cursor)
    (inside : stop < lines.length) (agree : AgreeOn lines others low stop) (after : low < cursor)
    : readScope others declared stop cursor known
        = readScope lines declared stop cursor known := by
  -- the first case is the end of the lines; the others are what a line at the cursor can say
  induction stop, cursor, known using readScope.induct lines declared generalizing low with
  | case1 stop cursor known noLine =>
      have le := contained.1
      rw [readScope_runsOut noLine, readScope_runsOut (agree.before? after noLine),
        agree.numberAt (by omega) (by omega)]
  | case2 stop cursor known line here error means =>
      rw [readScope_error here means, readScope_error (agree.before? after here) means]
  | case3 stop cursor known line here means ih
  | case4 stop cursor known line here _ means ih =>
      have later := contained.after_line (of_before? here).1
      rw [readScope_silent here means rfl, readScope_silent (agree.before? after here) means rfl,
        ih later inside agree (Nat.lt_succ_of_lt after)]
  | case5 stop cursor known line here means =>
      rw [readScope_ended here means, readScope_ended (agree.before? after here) means]
  | case6 stop cursor known line here means =>
      rw [readScope_dead here means, readScope_dead (agree.before? after here) means]
  | case7 stop cursor known line here _ means ih
  | case8 stop cursor known line here _ _ means ih
  | case9 stop cursor known line here _ _ means ih =>
      have later := contained.after_line (of_before? here).1
      rw [readScope_beat here means rfl, readScope_beat (agree.before? after here) means rfl,
        ih later inside agree (Nat.lt_succ_of_lt after)]
  | case10 stop cursor known line here name means error failed =>
      have opens := isOpening_of_option means
      have same := contained.readOption_eq inside here opens agree after name
      rw [readScope_option_error here means failed,
        readScope_option_error (agree.before? after here) means (same.trans failed)]
  | case11 stop cursor known line here name means choices close found ih =>
      have opens := isOpening_of_option means
      have same := contained.readOption_eq inside here opens agree after name
      obtain ⟨-, later⟩ := contained.after_option here opens found
      have behind := lt_of_readOption found
      rw [readScope_option here means found,
        readScope_option (agree.before? after here) means (same.trans found),
        ih later inside agree (by omega)]
  | case12 stop cursor known line here means error failed =>
      have opens := isOpening_of_choices means
      have same := contained.scanBlock_eq inside here opens agree after
      rw [readScope_choices_error here means failed,
        readScope_choices_error (agree.before? after here) means (same.trans failed)]
  | case13 stop cursor known line here means block found ihBranches ih =>
      have opens := isOpening_of_choices means
      have same := contained.scanBlock_eq inside here opens agree after
      obtain ⟨close, later⟩ := contained.after_choices here opens found
      have behind := (scanBlock_bounds found).1
      obtain ⟨each, -⟩ := (successive_of_scanBlock found).ordered
      have agreeEach : ∀ branch ∈ block.branches,
          AgreeOn lines others branch.label branch.stop := by
        intro branch member
        obtain ⟨behind, -, before⟩ := each branch member
        exact agree.within (by omega) (by omega)
      have number : numberAt others block.close = numberAt lines block.close :=
        agree.numberAt (by omega) close
      have bodies
          : readBranches others cursor block.branches
                (fun branch _ => readScope others declared branch.stop branch.start) known
              = readBranches lines cursor block.branches
                (fun branch _ => readScope lines declared branch.stop branch.start) known := by
        refine readBranches_eq (agree.numberAt (Nat.le_of_lt after) (of_before? here).1) agreeEach
          (fun branch member => (each branch member).2.1) ?_
        intro branch member known
        obtain ⟨-, stops, -⟩ := each branch member
        exact ihBranches branch member known stops.contained stops.bounds.2
          (agreeEach branch member) (Nat.lt_succ_self branch.label)
      have behindLow : low < block.reconverge := by
        unfold Block.reconverge
        omega
      have rest (known : List String)
          : readScope others declared stop block.reconverge known
            = readScope lines declared stop block.reconverge known :=
        ih known later inside agree behindLow
      rw [readScope_block here means found,
        readScope_block (agree.before? after here) means (same.trans found), number, bodies]
      simp only [rest]

/-- What is read for a branch depends on the line at an index: other lines that differ there alone
are read in another way.
-/
def DependsOn (lines : List Line) (declared : List String) (branch : Branch) (index : Nat) : Prop :=
  ∃ others known,
    (∀ other, other ≠ index → others[other]? = lines[other]?)
    ∧ readScope others declared branch.stop branch.start known
        ≠ readScope lines declared branch.stop branch.start known

/-- What is read for a branch depends on the lines from its label up to where its body stops, and on
no others, whatever options are known.
-/
def ReadsOwn (lines : List Line) (declared : List String) (branch : Branch) : Prop :=
  ∀ others known,
    AgreeOn lines others branch.label branch.stop
    → readScope others declared branch.stop branch.start known
      = readScope lines declared branch.stop branch.start known

/-- A line that a branch depends on is one of its own. -/
theorem ReadsOwn.bounds {branch : Branch} (own : ReadsOwn lines declared branch) {index : Nat}
    (depends : DependsOn lines declared branch index)
    : branch.label ≤ index ∧ index < branch.stop := by
  obtain ⟨others, known, same, differs⟩ := depends
  by_contra outside
  apply differs
  apply own others known
  intro other after before
  apply same other
  intro here
  exact outside ⟨here ▸ after, here ▸ before⟩

/-- What is read for a branch of a block that is found depends on its own lines alone. -/
theorem readsOwn_of_scanBlock {start : Nat} {block : Block}
    (found : scanBlock lines declared opened start = .ok block)
    : ∀ branch ∈ block.branches, ReadsOwn lines declared branch := by
  obtain ⟨each, -⟩ := (successive_of_scanBlock found).ordered
  intro branch member others known agree
  obtain ⟨-, stops, -⟩ := each branch member
  exact stops.contained.readScope_eq stops.bounds.2 agree (Nat.lt_succ_self branch.label)

/-- No two branches of a block depend on the same line. -/
theorem pairwise_dependsOn {start : Nat} {block : Block}
    (found : scanBlock lines declared opened start = .ok block)
    : block.branches.Pairwise fun earlier later =>
        ∀ index,
          DependsOn lines declared earlier index → ¬ DependsOn lines declared later index := by
  obtain ⟨-, ordered⟩ := (successive_of_scanBlock found).ordered
  have own := readsOwn_of_scanBlock found
  refine ordered.imp_of_mem ?_
  intro earlier later memberEarlier memberLater apart index inEarlier inLater
  have before := ((own earlier memberEarlier).bounds inEarlier).2
  have after := ((own later memberLater).bounds inLater).1
  omega

end Scopes

end Line

end Dialogue
