import Dialogue.Proofs.Script.Footprint
import Dialogue.Proofs.Script.Moments

/-! Confinement: a call that reads a scope stays in front of where the scope stops, and so do the
blocks that it finds, in every call that compiling makes. So the branches of a block are read from
different lines, and all lines that are taken to be there are there. The moments of calls for which
this is shown account for both outcomes of a call.
-/

namespace Dialogue

open Relation (ReflTransGen)

namespace Line

-----------------------------------------------------------------------------------------
-- Confinement
-----------------------------------------------------------------------------------------

/-- The indices at which lines are taken to be there. -/
inductive Moment.Uses (lines : List Line) (declared : List String) (moment : Moment)
    : Nat → Prop where
  /-- The next line is read, and it is named if it opens a block. -/
  | next (before : moment.cursor < moment.stop) : Uses lines declared moment moment.cursor
  /-- Where no line is left, the one in front of where the scope stops is named. -/
  | last (none : moment.stop ≤ moment.cursor) : Uses lines declared moment (moment.stop - 1)
  /-- The line that closes a block is named. -/
  | close {block} (finds : moment.FindsBlock lines declared block)
    : Uses lines declared moment block.close
  /-- Where lines are left behind the end of the scope, the one that ends it is named. -/
  | early {reading} (returns : (moment.read lines declared).outcome = .ok reading)
    (left : reading.cursor < moment.stop)
    : Uses lines declared moment (reading.cursor - 1)

/-- What holds at a moment of a call. -/
structure Confined (lines : List Line) (declared : List String) (moment : Moment) : Prop where
  stop_le : moment.stop ≤ lines.length
  cursor_le : moment.cursor ≤ moment.stop
  /-- The call returns with its cursor no further than where the scope stops, and behind a line that
  it has read if lines are left.
  -/
  returns
    : ∀ reading,
        (moment.read lines declared).outcome = .ok reading
        → moment.cursor ≤ reading.cursor
          ∧ reading.cursor ≤ moment.stop
          ∧ (reading.cursor < moment.stop → moment.cursor < reading.cursor)
  option
    : ∀ name choices close,
        moment.FindsOption lines name choices close → close < moment.stop
  block : ∀ block, moment.FindsBlock lines declared block → block.close < moment.stop
  /-- The branches of a block are read from its lines alone, each from lines of its own. -/
  branches
    : ∀ block,
        moment.FindsBlock lines declared block
        → (∀ branch ∈ block.branches,
            moment.cursor < branch.label
            ∧ branch.start ≤ branch.stop
            ∧ branch.stop ≤ block.close
            ∧ ReadsOwn lines declared branch)
          ∧ (block.branches.Pairwise fun earlier later => earlier.stop ≤ later.label)
          ∧ block.branches.Pairwise fun earlier later =>
              ∀ index,
                DependsOn lines declared earlier index → ¬ DependsOn lines declared later index
  /-- The call, and all calls that it makes, go forward and stay in front of where the scope stops.
  -/
  within
    : ∀ next,
        ReflTransGen (Leads lines declared) moment next
        → moment.cursor ≤ next.cursor ∧ next.stop ≤ moment.stop
  uses : ∀ index, moment.Uses lines declared index → index < lines.length
  /-- Where the call returns, the moments that it leads to are those at which the parts of its scope
  are read.
  -/
  parts
    : ∀ reading,
        (moment.read lines declared).outcome = .ok reading
        → moment.ReadsParts lines declared reading.scope
  /-- The call fails for what is refused at a moment that it leads to, and for nothing else. -/
  fails
    : ∀ error,
        (moment.read lines declared).outcome = .error error
        ↔ ∃ next,
            ReflTransGen (Leads lines declared) moment next ∧ next.Refused lines declared error

section Confinement

variable {lines : List Line} {declared : List String} {moment next : Moment}

/-- Calls stay contained, go forward and do not read beyond the scope that they stand in. By cases
on what a call goes on with.
-/
theorem Leads.contained (leads : Leads lines declared moment next)
    (contained : Contained lines declared moment.stop moment.cursor)
    : Contained lines declared next.stop next.cursor
      ∧ moment.cursor ≤ next.cursor
      ∧ next.stop ≤ moment.stop := by
  cases leads with
  | line means _ =>
      obtain ⟨line, here, -⟩ := means
      exact ⟨contained.after_line (of_before? here).1, Nat.le_succ _, Nat.le_refl _⟩
  | option finds =>
      obtain ⟨⟨line, here, means⟩, found⟩ := finds
      obtain ⟨-, later⟩ := contained.after_option here (isOpening_of_option means) found
      have forward := lt_of_readOption found
      exact ⟨later, Nat.le_succ_of_le (Nat.le_of_lt forward), Nat.le_refl _⟩
  | @branch block _ branch _ _ _ finds split _ =>
      obtain ⟨⟨line, here, means⟩, found⟩ := finds
      obtain ⟨inside, -⟩ := contained.after_choices here (isOpening_of_choices means) found
      obtain ⟨each, -⟩ := (successive_of_scanBlock found).ordered
      have member : branch ∈ block.branches := by simp [split]
      obtain ⟨after, stops, before⟩ := each branch member
      have forward : moment.cursor ≤ branch.start := Nat.le_succ_of_le (Nat.le_of_lt after)
      exact ⟨stops.contained, forward, Nat.le_of_lt (Nat.lt_of_le_of_lt before inside)⟩
  | @block block _ _ finds _ =>
      obtain ⟨⟨line, here, means⟩, found⟩ := finds
      obtain ⟨-, later⟩ := contained.after_choices here (isOpening_of_choices means) found
      have forward : moment.cursor ≤ block.close :=
        Nat.le_of_succ_le (Nat.le_of_lt (scanBlock_bounds found).1)
      exact ⟨later, Nat.le_succ_of_le forward, Nat.le_refl _⟩

/-- Whatever a contained moment leads to is contained and lies inside of the same scope, by
induction on the path.
-/
theorem Contained.along (contained : Contained lines declared moment.stop moment.cursor)
    (path : ReflTransGen (Leads lines declared) moment next)
    : Contained lines declared next.stop next.cursor
      ∧ moment.cursor ≤ next.cursor
      ∧ next.stop ≤ moment.stop := by
  induction path with
  | refl => exact ⟨contained, Nat.le_refl _, Nat.le_refl _⟩
  | tail _ leads ih =>
      obtain ⟨here, after, before⟩ := ih
      obtain ⟨later, further, inner⟩ := leads.contained here
      exact ⟨later, Nat.le_trans after further, Nat.le_trans inner before⟩

/-- All moments that compiling comes to are contained. -/
theorem Reached.contained (reached : Reached lines declared moment)
    : Contained lines declared moment.stop moment.cursor := by
  exact (Contained.along (contained_whole lines declared) reached.path).1

theorem Contained.stop_le {stop cursor : Nat} (contained : Contained lines declared stop cursor)
    : stop ≤ lines.length := by
  rcases contained with ⟨-, whole | ⟨depth, stops⟩⟩
  · exact Nat.le_of_eq whole
  · exact Nat.le_of_lt stops.bounds.2

/-- A scope that is closed before its last line has been read up to the line that closes it, by
cases on the first rule of the reading.
-/
theorem Reads.cursor_lt {stop cursor : Nat} {known : List String} {reading : Reading}
    (reads : Reads lines declared stop cursor known reading)
    (contained : Contained lines declared stop cursor) (left : reading.cursor < stop)
    : cursor < reading.cursor := by
  cases reads with
  | runsOut noLine =>
      have inside := Nat.lt_of_lt_of_le left contained.stop_le
      rw [before?, if_pos left, List.getElem?_eq_getElem inside] at noLine
      cases noLine
  | ended _ _ | dead _ _ => exact Nat.lt_succ_self cursor
  | silent here _ _ rest => exact (rest.sourceLines (contained.after_line (of_before? here).1)).1
  | beat here _ _ rest => exact (rest.sourceLines (contained.after_line (of_before? here).1)).1
  | option here means found rest =>
      have opens := isOpening_of_option means
      obtain ⟨after, -⟩ := rest.sourceLines (contained.after_option here opens found).2
      exact Nat.lt_trans (lt_of_readOption found) after
  | choices here means found _ rest =>
      have opens := isOpening_of_choices means
      obtain ⟨after, -⟩ := rest.sourceLines (contained.after_choices here opens found).2
      have behind := (scanBlock_bounds found).1
      exact Nat.lt_trans (Nat.lt_of_succ_lt behind) after

/-- Where a call is contained, so is what it returns and what it finds. -/
theorem confined_of_contained (contained : Contained lines declared moment.stop moment.cursor)
    (someLine : lines ≠ [])
    : Confined lines declared moment := by
  have cursor_le := contained.1
  have stop_le := contained.stop_le
  have returns
      : ∀ reading,
          (moment.read lines declared).outcome = .ok reading
          → moment.cursor ≤ reading.cursor
            ∧ reading.cursor ≤ moment.stop
            ∧ (reading.cursor < moment.stop → moment.cursor < reading.cursor) := by
    intro reading returned
    have reads := reads_of_readScope returned
    obtain ⟨after, before, -⟩ := reads.sourceLines contained
    exact ⟨after, before, reads.cursor_lt contained⟩
  have block
      : ∀ block, moment.FindsBlock lines declared block → block.close < moment.stop := by
    intro block finds
    obtain ⟨⟨line, here, means⟩, found⟩ := finds
    have opens := isOpening_of_choices means
    exact (contained.after_choices here opens found).1
  exact {
    stop_le
    cursor_le
    returns
    block
    option := by
      intro name choices close finds
      obtain ⟨⟨line, here, means⟩, found⟩ := finds
      have opens := isOpening_of_option means
      exact (contained.after_option here opens found).1
    branches := by
      intro block finds
      obtain ⟨each, ordered⟩ := (successive_of_scanBlock finds.2).ordered
      refine ⟨?_, ordered, pairwise_dependsOn finds.2⟩
      intro branch member
      obtain ⟨after, stops, before⟩ := each branch member
      exact ⟨after, stops.bounds.1, before, readsOwn_of_scanBlock finds.2 branch member⟩
    within := by
      intro next path
      exact (contained.along path).2
    uses := by
      intro index used
      cases used with
      | next before => exact Nat.lt_of_lt_of_le before stop_le
      | last none =>
          have some := List.length_pos_iff.mpr someLine
          omega
      | close finds => exact Nat.lt_of_lt_of_le (block _ finds) stop_le
      | early returned left =>
          have after := (returns _ returned).2.2 left
          omega
    parts := fun _ => Moment.readsParts
    fails := fun _ => Moment.read_eq_error_iff
  }

/-- At every moment that compiling comes to, in every call, the scope that is read and the blocks
that are found in it are confined to the lines in front of where the scope stops.
-/
theorem Reached.confined (reached : Reached lines declared moment)
    : Confined lines declared moment :=
  confined_of_contained reached.contained reached.someLine

end Confinement

/-- A block with two branches, of which the first ends with an inner block. -/
def hostLines : List Line :=
  [⟨1, ["option"], "pick"⟩, ⟨2, ["p"], "One"⟩, ⟨3, ["/"], ""⟩, ⟨4, ["choices"], ""⟩,
    ⟨5, ["pick,1"], ""⟩, ⟨6, ["option"], "mood"⟩, ⟨7, ["m"], "Fine"⟩, ⟨8, ["/"], ""⟩,
    ⟨9, ["choices"], ""⟩, ⟨10, ["mood,1"], ""⟩, ⟨11, ["END"], ""⟩, ⟨12, ["/"], ""⟩,
    ⟨13, ["pick,2"], ""⟩, ⟨14, ["A"], "Two"⟩, ⟨15, ["/"], ""⟩]

/-- Compiling comes to the inner block in the call for the first branch, and the block closes on the
last line of the branch.
-/
theorem host_moment_confined
    : decodeAll
          [(1, "<option>pick"), (2, "<p>One"), (3, "</>"), (4, "<choices>"), (5, "<pick,1>"),
            (6, "<option>mood"), (7, "<m>Fine"), (8, "</>"), (9, "<choices>"), (10, "<mood,1>"),
            (11, "<END>"), (12, "</>"), (13, "<pick,2>"), (14, "<A>Two"), (15, "</>")]
        = .ok hostLines
      ∧ Reached hostLines ["pick", "mood"] ⟨12, 8, ["mood", "pick"]⟩
      ∧ Moment.FindsBlock hostLines ["pick", "mood"] ⟨12, 8, ["mood", "pick"]⟩
          ⟨[⟨9, ⟨"mood", 1⟩⟩], 11⟩
      ∧ Confined hostLines ["pick", "mood"] ⟨12, 8, ["mood", "pick"]⟩ := by
  have outer
      : Moment.FindsBlock hostLines ["pick", "mood"] ⟨15, 3, ["pick"]⟩
          ⟨[⟨4, ⟨"pick", 1⟩⟩, ⟨12, ⟨"pick", 2⟩⟩], 14⟩ :=
    ⟨⟨_, rfl, by decide +kernel⟩, by decide +kernel⟩
  have inner
      : Moment.FindsBlock hostLines ["pick", "mood"] ⟨12, 8, ["mood", "pick"]⟩
          ⟨[⟨9, ⟨"mood", 1⟩⟩], 11⟩ :=
    ⟨⟨_, rfl, by decide +kernel⟩, by decide +kernel⟩
  have pick : Moment.FindsOption hostLines ⟨15, 0, []⟩ "pick" ["One"] 2 :=
    ⟨⟨_, rfl, by decide +kernel⟩, by decide +kernel⟩
  have mood : Moment.FindsOption hostLines ⟨12, 5, ["pick"]⟩ "mood" ["Fine"] 7 :=
    ⟨⟨_, rfl, by decide +kernel⟩, by decide +kernel⟩
  have reached : Reached hostLines ["pick", "mood"] ⟨12, 8, ["mood", "pick"]⟩ := by
    refine ⟨by decide, by decide +kernel, ?_⟩
    exact .head (.option pick) (.head (.branch outer rfl .nil) (.single (.option mood)))
  exact ⟨by decide +kernel, reached, inner, reached.confined⟩

end Line

end Dialogue
