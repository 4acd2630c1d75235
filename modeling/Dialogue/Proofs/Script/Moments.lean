import Mathlib.Logic.Relation
import Dialogue.Proofs.Script.Outlines

/-! Moments of compiling: where each call stands, and what it goes on with, in itself and in the
calls that it makes. A call that fails comes to the moment at which a line is refused, and one that
returns comes to the moments at which the parts of its scope are read.
-/

namespace Dialogue

open Relation (ReflTransGen)

/-- The scopes in the branches of a block. -/
def Branches.bodies : Branches → List Scope
  | .nil => []
  | .cons _ body rest => body :: rest.bodies

/-- A scope goes on behind its first beat or block, and in the branches of that block. Its parts are
itself and all that it goes on with, step by step.
-/
inductive Scope.GoesOn : Scope → Scope → Prop where
  | beat {shown line rest} : GoesOn (.beat shown line rest) rest
  | block {line branches rest} : GoesOn (.block line branches rest) rest
  | branch {line branches rest body} (member : body ∈ branches.bodies)
    : GoesOn (.block line branches rest) body

namespace Line

-----------------------------------------------------------------------------------------
-- Moments of calls
-----------------------------------------------------------------------------------------

/-- A moment of a call that reads the scope up to `stop`: the line at `cursor` is next, and `known`
are the option names above it.
-/
structure Moment where
  stop : Nat
  cursor : Nat
  known : List String

namespace Moment

/-- What the call returns when it goes on from a moment. -/
def read (lines : List Line) (declared : List String) (moment : Moment)
    : Logged ScriptError Reading :=
  readScope lines declared moment.stop moment.cursor moment.known

/-- A line is left, and this is what it means. -/
def Means (lines : List Line) (moment : Moment) (statement : Statement) : Prop :=
  ∃ line,
    before? lines moment.stop moment.cursor = some line
    ∧ line.statement moment.known = .ok statement

/-- The next line opens the option block with these choices, which closes at `close`. -/
def FindsOption (lines : List Line) (moment : Moment) (name : String) (choices : List String)
    (close : Nat)
    : Prop :=
  moment.Means lines (.option name)
  ∧ readOption lines moment.cursor name = .ok (choices, close)

/-- The next line opens this choices block. -/
def FindsBlock (lines : List Line) (declared : List String) (moment : Moment) (block : Block)
    : Prop :=
  moment.Means lines .choices
  ∧ scanBlock lines declared moment.cursor (moment.cursor + 1) = .ok block

/-- The next line is refused for this fault, which ends all calls. -/
inductive Refused (lines : List Line) (declared : List String) (moment : Moment)
    : ScriptError → Prop where
  | statement {line error}
    (here : before? lines moment.stop moment.cursor = some line)
    (failed : line.statement moment.known = .error error)
    : Refused lines declared moment error
  | option {name error} (means : moment.Means lines (.option name))
    (failed : readOption lines moment.cursor name = .error error)
    : Refused lines declared moment error
  | block {error} (means : moment.Means lines .choices)
    (failed : scanBlock lines declared moment.cursor (moment.cursor + 1) = .error error)
    : Refused lines declared moment error

end Moment

/-- Compiling goes on from one moment to another, in the same call or in one that it makes. -/
inductive Leads (lines : List Line) (declared : List String) : Moment → Moment → Prop where
  /-- The next line means nothing or is a beat. -/
  | line {moment : Moment} {statement} (means : moment.Means lines statement)
    (goesOn : statement.isSilent = true ∨ ∃ shown, statement.beat? = some shown)
    : Leads lines declared moment ⟨moment.stop, moment.cursor + 1, moment.known⟩
  /-- The next line opens an option block, behind which the call goes on. -/
  | option {moment : Moment} {name choices close}
    (finds : moment.FindsOption lines name choices close)
    : Leads lines declared moment ⟨moment.stop, close + 1, name :: moment.known⟩
  /-- The next line opens a choices block. When the branches before it have been read, a branch is
  read by a call of its own.
  -/
  | branch {moment : Moment} {block earlier branch rest result later}
    (finds : moment.FindsBlock lines declared block)
    (split : block.branches = earlier ++ branch :: rest)
    (bodies : ReadsBranches lines declared earlier moment.known result later)
    : Leads lines declared moment ⟨branch.stop, branch.start, later⟩
  /-- When all its branches have been read, the call goes on behind the block. -/
  | block {moment : Moment} {block result later} (finds : moment.FindsBlock lines declared block)
    (bodies : ReadsBranches lines declared block.branches moment.known result later)
    : Leads lines declared moment ⟨moment.stop, block.reconverge, later⟩

/-- The moments that a moment leads to are those at which the parts of this scope are read: their
calls return, each with a part of it, and every part is read by one of them.
-/
structure Moment.ReadsParts (lines : List Line) (declared : List String) (moment : Moment)
    (scope : Scope)
    : Prop where
  returns
    : ∀ next,
        ReflTransGen (Leads lines declared) moment next
        → ∃ reading,
            (next.read lines declared).outcome = .ok reading
            ∧ ReflTransGen Scope.GoesOn scope reading.scope
  covers
    : ∀ part,
        ReflTransGen Scope.GoesOn scope part
        → ∃ next reading,
            ReflTransGen (Leads lines declared) moment next
            ∧ (next.read lines declared).outcome = .ok reading
            ∧ reading.scope = part

/-- Compiling these lines comes to a moment, whether or not it succeeds. -/
structure Reached (lines : List Line) (declared : List String) (moment : Moment) : Prop where
  someLine : lines ≠ []
  names : optionNames lines = .ok declared
  path : ReflTransGen (Leads lines declared) ⟨lines.length, 0, []⟩ moment

-----------------------------------------------------------------------------------------
-- Failures
-----------------------------------------------------------------------------------------

section Failures

variable {lines : List Line} {declared : List String}

/-- Branches fail to be read for the first one that fails, by induction on their list. -/
theorem exists_of_readBranches_eq_error {branches : List Branch} {opened : Nat}
    {known : List String} {error : ScriptError}
    (failed : (readBranches lines opened branches
      (fun branch _ => readScope lines declared branch.stop branch.start) known).outcome
        = .error error)
    : ∃ earlier branch rest result later,
        branches = earlier ++ branch :: rest
        ∧ ReadsBranches lines declared earlier known result later
        ∧ (readScope lines declared branch.stop branch.start later).outcome = .error error := by
  induction branches generalizing known with
  | nil => cases failed
  | cons branch rest ih =>
      rw [readBranches_cons, Logged.outcome_bind, bind_eq_error_iff] at failed
      rcases failed with failedBody | ⟨body, read, failed⟩
      · exact ⟨[], branch, rest, _, known, rfl, .nil, failedBody⟩
      · rw [Logged.outcome_bind, bind_eq_error_iff] at failed
        rcases failed with failedRest | ⟨_, _, failed⟩
        · obtain ⟨earlier, culprit, others, _, later, rfl, bodies, failed⟩ := ih failedRest
          exact ⟨branch :: earlier, culprit, others, _, later, rfl,
            .cons (reads_of_readScope read) bodies, failed⟩
        · cases failed

/-- Branches fail where a body fails behind branches that are read, by induction on the latter. -/
theorem ReadsBranches.fails {earlier rest : List Branch} {branch : Branch}
    {known later : List String} {result : Branches} {error : ScriptError}
    (bodies : ReadsBranches lines declared earlier known result later)
    (failed : (readScope lines declared branch.stop branch.start later).outcome = .error error)
    (opened : Nat)
    : (Line.readBranches lines opened (earlier ++ branch :: rest)
        (fun branch _ => readScope lines declared branch.stop branch.start) known).outcome
      = .error error := by
  induction earlier generalizing known result with
  | nil =>
      cases bodies
      rw [List.nil_append, readBranches_cons, Logged.outcome_bind, bind_eq_error_iff]
      exact Or.inl failed
  | cons first others ih =>
      cases bodies with
      | cons body tail =>
          rw [List.cons_append, readBranches_cons, Logged.outcome_bind, bind_eq_error_iff]
          refine Or.inr ⟨_, body.readScope, ?_⟩
          rw [Logged.outcome_bind, bind_eq_error_iff]
          exact Or.inl (ih tail)

/-- A call that finds a block fails where the body of a branch does or what stands behind the block.
-/
theorem Moment.FindsBlock.read_eq_error_iff {moment : Moment} {block : Block}
    {error : ScriptError} (finds : moment.FindsBlock lines declared block)
    : (moment.read lines declared).outcome = .error error
      ↔ (∃ earlier branch rest result later,
          block.branches = earlier ++ branch :: rest
          ∧ ReadsBranches lines declared earlier moment.known result later
          ∧ (readScope lines declared branch.stop branch.start later).outcome = .error error)
        ∨ ∃ result later,
            ReadsBranches lines declared block.branches moment.known result later
            ∧ (readScope lines declared moment.stop block.reconverge later).outcome
              = .error error := by
  obtain ⟨⟨line, here, means⟩, found⟩ := finds
  rw [Moment.read, readScope_choices here means found, Logged.outcome_bind, bind_eq_error_iff]
  constructor
  · rintro (failed | ⟨⟨result, later⟩, bodies, failed⟩)
    · exact Or.inl (exists_of_readBranches_eq_error failed)
    · rw [Logged.outcome_map, map_eq_error_iff] at failed
      have read := readsBranches_of_readBranches (fun _ _ _ _ => reads_of_readScope) bodies
      exact Or.inr ⟨result, later, read, failed⟩
  · rintro (⟨earlier, branch, rest, _, later, split, bodies, failed⟩ | ⟨_, later, bodies, failed⟩)
    · rw [split]
      exact Or.inl (bodies.fails failed _)
    · refine Or.inr ⟨_, bodies.readBranches _, ?_⟩
      rw [Logged.outcome_map, map_eq_error_iff]
      exact failed

/-- A call fails for a line that is refused at a moment that it leads to, by induction on the lines
that are left.
-/
theorem exists_refused {stop cursor : Nat} {known : List String} {error : ScriptError}
    (failed : (readScope lines declared stop cursor known).outcome = .error error)
    : ∃ moment,
        ReflTransGen (Leads lines declared) ⟨stop, cursor, known⟩ moment
        ∧ moment.Refused lines declared error := by
  -- the first case is the end of the lines; the others are what a line at the cursor can say
  induction stop, cursor, known using readScope.induct lines declared with
  | case1 stop cursor known noLine =>
      rw [readScope_runsOut noLine] at failed
      cases failed
  | case2 stop cursor known line here other means =>
      rw [readScope_error here means] at failed
      obtain rfl := Except.error.inj failed
      exact ⟨_, .refl, .statement here means⟩
  | case3 stop cursor known line here means ih
  | case4 stop cursor known line here _ means ih =>
      rw [readScope_silent here means rfl] at failed
      obtain ⟨moment, path, refused⟩ := ih failed
      exact ⟨moment, .head (.line ⟨line, here, means⟩ (Or.inl rfl)) path, refused⟩
  | case5 stop cursor known line here means =>
      rw [readScope_ended here means] at failed
      cases failed
  | case6 stop cursor known line here means =>
      rw [readScope_dead here means] at failed
      cases failed
  | case7 stop cursor known line here _ means ih
  | case8 stop cursor known line here _ _ means ih
  | case9 stop cursor known line here _ _ means ih =>
      rw [readScope_beat here means rfl, Logged.outcome_map, map_eq_error_iff] at failed
      obtain ⟨moment, path, refused⟩ := ih failed
      exact ⟨moment, .head (.line ⟨line, here, means⟩ (Or.inr ⟨_, rfl⟩)) path, refused⟩
  | case10 stop cursor known line here name means other unread =>
      rw [readScope_option_error here means unread] at failed
      obtain rfl := Except.error.inj failed
      exact ⟨_, .refl, .option ⟨line, here, means⟩ unread⟩
  | case11 stop cursor known line here name means choices close found ih =>
      rw [readScope_option here means found, Logged.outcome_map, map_eq_error_iff] at failed
      obtain ⟨moment, path, refused⟩ := ih failed
      exact ⟨moment, .head (.option ⟨⟨line, here, means⟩, found⟩) path, refused⟩
  | case12 stop cursor known line here means other unread =>
      rw [readScope_choices_error here means unread] at failed
      obtain rfl := Except.error.inj failed
      exact ⟨_, .refl, .block ⟨line, here, means⟩ unread⟩
  | case13 stop cursor known line here means block found ihBranches ih =>
      have finds : Moment.FindsBlock lines declared ⟨stop, cursor, known⟩ block :=
        ⟨⟨line, here, means⟩, found⟩
      rcases finds.read_eq_error_iff.mp failed with
        ⟨earlier, branch, rest, _, later, split, bodies, failed⟩ | ⟨_, later, bodies, failed⟩
      · have member : branch ∈ block.branches := by simp [split]
        obtain ⟨moment, path, refused⟩ := ihBranches branch member later failed
        exact ⟨moment, .head (.branch finds split bodies) path, refused⟩
      · obtain ⟨moment, path, refused⟩ := ih later failed
        exact ⟨moment, .head (.block finds bodies) path, refused⟩

/-- A call fails for the line that is refused at its moment, by cases on what is refused. -/
theorem Moment.Refused.fails {moment : Moment} {error : ScriptError}
    (refused : moment.Refused lines declared error)
    : (moment.read lines declared).outcome = .error error := by
  cases refused with
  | statement here failed =>
      rw [Moment.read, readScope_error here failed, Logged.outcome_throw]
  | option means failed =>
      obtain ⟨line, here, means⟩ := means
      rw [Moment.read, readScope_option_error here means failed, Logged.outcome_throw]
  | block means failed =>
      obtain ⟨line, here, means⟩ := means
      rw [Moment.read, readScope_choices_error here means failed, Logged.outcome_throw]

/-- A call fails where what it goes on with does, by cases on what that is. -/
theorem Leads.fails {moment next : Moment} {error : ScriptError}
    (leads : Leads lines declared moment next)
    (failed : (next.read lines declared).outcome = .error error)
    : (moment.read lines declared).outcome = .error error := by
  cases leads with
  | line means goesOn =>
      obtain ⟨line, here, means⟩ := means
      rcases goesOn with isSilent | ⟨shown, shows⟩
      · rw [Moment.read, readScope_silent here means isSilent]
        exact failed
      · rw [Moment.read, readScope_beat here means shows, Logged.outcome_map, map_eq_error_iff]
        exact failed
  | option finds =>
      obtain ⟨⟨line, here, means⟩, found⟩ := finds
      rw [Moment.read, readScope_option here means found, Logged.outcome_map, map_eq_error_iff]
      exact failed
  | branch finds split bodies =>
      exact finds.read_eq_error_iff.mpr (Or.inl ⟨_, _, _, _, _, split, bodies, failed⟩)
  | block finds bodies =>
      exact finds.read_eq_error_iff.mpr (Or.inr ⟨_, _, bodies, failed⟩)

/-- A call fails exactly for what is refused at a moment that it leads to, by induction on the path
to that moment.
-/
theorem Moment.read_eq_error_iff {moment : Moment} {error : ScriptError}
    : (moment.read lines declared).outcome = .error error
      ↔ ∃ next,
          ReflTransGen (Leads lines declared) moment next ∧ next.Refused lines declared error := by
  constructor
  · exact exists_refused
  · rintro ⟨next, path, refused⟩
    induction path using ReflTransGen.head_induction_on with
    | refl => exact refused.fails
    | head leads _ ih => exact leads.fails ih

end Failures

-----------------------------------------------------------------------------------------
-- Returns
-----------------------------------------------------------------------------------------

section Returns

variable {lines : List Line} {declared known later : List String} {result : Branches}
  {moment next : Moment} {reading : Reading}

/-- A body that has been read was read behind the branches before it, by induction on the branches.
-/
theorem ReadsBranches.exists_branch {branches : List Branch} {body : Scope}
    (bodies : ReadsBranches lines declared branches known result later)
    (member : body ∈ result.bodies)
    : ∃ earlier branch rest front between reading,
        branches = earlier ++ branch :: rest
        ∧ ReadsBranches lines declared earlier known front between
        ∧ Reads lines declared branch.stop branch.start between reading
        ∧ reading.scope = body := by
  induction branches generalizing known result with
  | nil =>
      cases bodies
      cases member
  | cons first others ih =>
      cases bodies with
      | cons read tail =>
          rcases List.mem_cons.mp member with rfl | member
          · exact ⟨[], first, others, _, known, _, rfl, .nil, read, rfl⟩
          · obtain ⟨earlier, branch, rest, _, between, body, rfl, before, reads, same⟩ :=
              ih tail member
            exact ⟨first :: earlier, branch, rest, _, between, body, rfl, .cons read before, reads,
              same⟩

/-- Where all branches are read, so is the body of each, with the options that are known in front of
it. By induction on the branches in front of it.
-/
theorem ReadsBranches.exists_body {earlier rest : List Branch} {branch : Branch}
    {between : List String} {front : Branches}
    (bodies : ReadsBranches lines declared (earlier ++ branch :: rest) known result later)
    (before : ReadsBranches lines declared earlier known front between)
    : ∃ reading,
        Reads lines declared branch.stop branch.start between reading
        ∧ reading.scope ∈ result.bodies := by
  induction earlier generalizing known result front with
  | nil =>
      cases before
      cases bodies with
      | cons body tail => exact ⟨_, body, List.mem_cons_self⟩
  | cons first others ih =>
      cases before with
      | cons firstBody before =>
          cases bodies with
          | cons body tail =>
              obtain rfl := firstBody.unique body
              obtain ⟨reading, reads, member⟩ := ih tail before
              exact ⟨reading, reads, List.mem_cons_of_mem _ member⟩

/-- Where a call returns, so does what it goes on with, and the scope that is read there is part of
the scope of the call. By cases on what it goes on with.
-/
theorem Leads.returns (leads : Leads lines declared moment next)
    (returned : (moment.read lines declared).outcome = .ok reading)
    : ∃ inner,
        (next.read lines declared).outcome = .ok inner
        ∧ ReflTransGen Scope.GoesOn reading.scope inner.scope := by
  have reads := reads_of_readScope returned
  cases leads with
  | line means goesOn =>
      obtain ⟨line, here, means⟩ := means
      rcases goesOn with isSilent | ⟨shown, shows⟩
      · exact ⟨reading, (reads.of_silent here means isSilent).readScope, .refl⟩
      · obtain ⟨rest, tail, rfl⟩ := reads.of_beat here means shows
        exact ⟨rest, tail.readScope, .single .beat⟩
  | option finds =>
      obtain ⟨⟨line, here, means⟩, found⟩ := finds
      obtain ⟨rest, tail, rfl⟩ := reads.of_option here means found
      exact ⟨rest, tail.readScope, .single .beat⟩
  | branch finds split before =>
      obtain ⟨⟨line, here, means⟩, found⟩ := finds
      obtain ⟨branches, last, rest, bodies, -, rfl⟩ := reads.of_choices here means found
      rw [split] at bodies
      obtain ⟨body, read, member⟩ := bodies.exists_body before
      exact ⟨body, read.readScope, .single (.branch member)⟩
  | block finds bodies =>
      obtain ⟨⟨line, here, means⟩, found⟩ := finds
      obtain ⟨branches, last, rest, again, tail, rfl⟩ := reads.of_choices here means found
      obtain ⟨-, rfl⟩ := bodies.unique again
      exact ⟨rest, tail.readScope, .single .block⟩

/-- What the scope of a call goes on with is read at a moment that the call leads to, by induction
on the lines that mean nothing.
-/
theorem Reads.exists_leads
    : ∀ {stop cursor : Nat} {known : List String} {reading : Reading},
        Reads lines declared stop cursor known reading
        → ∀ {part}, reading.scope.GoesOn part
        → ∃ next inner,
            ReflTransGen (Leads lines declared) ⟨stop, cursor, known⟩ next
            ∧ (next.read lines declared).outcome = .ok inner
            ∧ inner.scope = part
  | _, _, _, _, .runsOut _, _, goesOn => nomatch goesOn
  | _, _, _, _, .ended _ _, _, goesOn => nomatch goesOn
  | _, _, _, _, .dead _ _, _, goesOn => nomatch goesOn
  | _, _, _, _, .silent here means isSilent rest, _, goesOn => by
      obtain ⟨next, inner, path, found⟩ := rest.exists_leads goesOn
      exact ⟨next, inner, .head (.line ⟨_, here, means⟩ (Or.inl isSilent)) path, found⟩
  | _, _, _, _, .beat here means shows rest, _, .beat =>
      ⟨_, _, .single (.line ⟨_, here, means⟩ (Or.inr ⟨_, shows⟩)), rest.readScope, rfl⟩
  | _, _, _, _, .option here means found rest, _, .beat =>
      ⟨_, _, .single (.option ⟨⟨_, here, means⟩, found⟩), rest.readScope, rfl⟩
  | _, _, _, _, .choices here means found bodies rest, _, .block =>
      ⟨_, _, .single (.block ⟨⟨_, here, means⟩, found⟩ bodies), rest.readScope, rfl⟩
  | _, _, _, _, .choices here means found bodies _, _, .branch member => by
      obtain ⟨earlier, branch, rest, _, _, _, split, before, body, same⟩ :=
        bodies.exists_branch member
      exact ⟨_, _, .single (.branch ⟨⟨_, here, means⟩, found⟩ split before), body.readScope, same⟩

/-- The moments that a call leads to are those at which the parts of the scope that it returns are
read. By induction on the path to a moment, and on what the scope goes on with up to a part.
-/
theorem Moment.readsParts (returned : (moment.read lines declared).outcome = .ok reading)
    : moment.ReadsParts lines declared reading.scope where
  returns := by
    intro next path
    induction path with
    | refl => exact ⟨reading, returned, .refl⟩
    | tail _ leads ih =>
        obtain ⟨middle, returned, outer⟩ := ih
        obtain ⟨inner, returned, part⟩ := leads.returns returned
        exact ⟨inner, returned, outer.trans part⟩
  covers := by
    intro part within
    induction within with
    | refl => exact ⟨moment, reading, .refl, returned, rfl⟩
    | tail _ goesOn ih =>
        obtain ⟨middle, outer, path, returned, rfl⟩ := ih
        obtain ⟨next, inner, further, returned, same⟩ :=
          (reads_of_readScope returned).exists_leads goesOn
        exact ⟨next, inner, path.trans further, returned, same⟩

end Returns

-----------------------------------------------------------------------------------------
-- Outcomes of compiling
-----------------------------------------------------------------------------------------

section Outcomes

variable {lines : List Line}

/-- Once the options have been declared, compiling fails exactly for what is refused at a moment
that it comes to.
-/
theorem compile_eq_error_iff_refused {declared : List String} {error : ScriptError}
    (someLine : lines ≠ []) (names : optionNames lines = .ok declared)
    : (compile lines).outcome = .error error
      ↔ ∃ moment, Reached lines declared moment ∧ moment.Refused lines declared error := by
  rw [outcome_compile someLine, names]
  constructor
  · intro failed
    obtain ⟨moment, path, refused⟩ := exists_refused (map_eq_error_iff.mp failed)
    exact ⟨moment, ⟨someLine, names, path⟩, refused⟩
  · rintro ⟨moment, reached, refused⟩
    exact map_eq_error_iff.mpr (Moment.read_eq_error_iff.mpr ⟨moment, reached.path, refused⟩)

/-- Where compiling succeeds, it comes to the moments at which the parts of a scope are read, and
the graph is the one of that scope.
-/
theorem exists_readsParts_of_compile {graph : Graph}
    (compiled : (compile lines).outcome = .ok graph)
    : ∃ declared scope,
        optionNames lines = .ok declared
        ∧ Moment.ReadsParts lines declared ⟨lines.length, 0, []⟩ scope
        ∧ (scope.settle false).layout.splice = graph := by
  obtain ⟨_, ⟨-, names, reads⟩, spliced⟩ := compile_eq_ok_iff.mp compiled
  exact ⟨_, _, names, Moment.readsParts reads.readScope, spliced⟩

end Outcomes

end Line

end Dialogue
