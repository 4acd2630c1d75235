import Mathlib.Data.List.Forall2
import Dialogue.Script.Reading

/-! Reading as a relation: one rule for each thing that a line can do to the scope being read. A
scope is read from its lines exactly if the rules derive it, so whatever holds of all readings is
shown rule by rule.
-/

namespace Dialogue

section Outcomes

variable {ε α β : Type}

/-- A sequence succeeds if both of its parts do, by cases on the first outcome. -/
theorem bind_eq_ok_iff {first : Except ε α} {next : α → Except ε β} {result : β}
    : first >>= next = .ok result ↔ ∃ value, first = .ok value ∧ next value = .ok result := by
  cases first with
  | error error =>
      constructor
      · exact fun failed => nomatch failed
      · exact fun ⟨_, failed, _⟩ => nomatch failed
  | ok value =>
      constructor
      · exact fun h => ⟨value, rfl, h⟩
      · rintro ⟨other, same, h⟩
        obtain rfl := Except.ok.inj same
        exact h

/-- A function is applied to the values of successes alone, by cases on the outcome. -/
theorem map_eq_ok_iff {f : α → β} {first : Except ε α} {result : β}
    : f <$> first = .ok result ↔ ∃ value, first = .ok value ∧ f value = result := by
  cases first with
  | error error =>
      constructor
      · exact fun failed => nomatch failed
      · exact fun ⟨_, failed, _⟩ => nomatch failed
  | ok value =>
      constructor
      · exact fun h => ⟨value, rfl, Except.ok.inj h⟩
      · rintro ⟨other, same, rfl⟩
        obtain rfl := Except.ok.inj same
        rfl

/-- Results that are all successes are those of the items, by induction on the items. -/
theorem mem_iff_of_mapM_eq_ok {f : α → Except ε β} {items : List α} {results : List β}
    (mapped : items.mapM f = .ok results) {result : β}
    : result ∈ results ↔ ∃ item ∈ items, f item = .ok result := by
  induction items generalizing results with
  | nil =>
      obtain rfl := Except.ok.inj mapped
      simp
  | cons item rest ih =>
      rw [List.mapM_cons, bind_eq_ok_iff] at mapped
      obtain ⟨first, found, mapped⟩ := mapped
      obtain ⟨others, mappedRest, same⟩ := bind_eq_ok_iff.mp mapped
      obtain rfl := Except.ok.inj same
      simp [ih mappedRest, found, eq_comm]

/-- A sequence fails if one of its parts does, by cases on the first outcome. -/
theorem bind_eq_error_iff {first : Except ε α} {next : α → Except ε β} {error : ε}
    : first >>= next = .error error
      ↔ first = .error error ∨ ∃ value, first = .ok value ∧ next value = .error error := by
  cases first with
  | error other =>
      constructor
      · exact fun failed => Or.inl (congrArg _ (Except.error.inj failed))
      · rintro (failed | ⟨_, found, _⟩)
        · exact congrArg _ (Except.error.inj failed)
        · cases found
  | ok value =>
      constructor
      · exact fun failed => Or.inr ⟨value, rfl, failed⟩
      · rintro (failed | ⟨other, same, failed⟩)
        · cases failed
        · obtain rfl := Except.ok.inj same
          exact failed

theorem map_eq_error_iff {f : α → β} {first : Except ε α} {error : ε}
    : f <$> first = .error error ↔ first = .error error := by
  cases first with
  | error other => exact ⟨fun failed => congrArg _ (Except.error.inj failed),
      fun failed => congrArg _ (Except.error.inj failed)⟩
  | ok value => exact iff_of_false (fun failed => nomatch failed) fun failed => nomatch failed

/-- Where all results are successes, each item has one, by induction on the items. -/
theorem exists_of_mapM_eq_ok {f : α → Except ε β} {items : List α} {results : List β}
    (mapped : items.mapM f = .ok results)
    : ∀ item ∈ items, ∃ result, f item = .ok result := by
  induction items generalizing results with
  | nil => simp
  | cons item rest ih =>
      rw [List.mapM_cons, bind_eq_ok_iff] at mapped
      obtain ⟨first, found, mapped⟩ := mapped
      obtain ⟨others, mappedRest, -⟩ := bind_eq_ok_iff.mp mapped
      simpa [found] using ih mappedRest

/-- The fault of results is that of the first item that has one, by induction on the items. -/
theorem exists_first_of_mapM_eq_error {f : α → Except ε β} {items : List α} {error : ε}
    (failed : items.mapM f = .error error)
    : ∃ before item after,
        items = before ++ item :: after
        ∧ (∀ other ∈ before, ∃ result, f other = .ok result)
        ∧ f item = .error error := by
  induction items with
  | nil => cases failed
  | cons item rest ih =>
      rw [List.mapM_cons, bind_eq_error_iff] at failed
      rcases failed with failed | ⟨result, found, failed⟩
      · exact ⟨[], item, rest, rfl, by simp, failed⟩
      · rcases bind_eq_error_iff.mp failed with failedRest | ⟨_, _, failed⟩
        · obtain ⟨before, culprit, after, rfl, each, failed⟩ := ih failedRest
          refine ⟨item :: before, culprit, after, rfl, ?_, failed⟩
          simpa [found] using each
        · cases failed

/-- The first item that has a fault decides the fault of results, and nothing else does. By
induction on the items before it.
-/
theorem mapM_eq_error_iff {f : α → Except ε β} {items : List α} {error : ε}
    : items.mapM f = .error error
      ↔ ∃ before item after,
          items = before ++ item :: after
          ∧ (∀ other ∈ before, ∃ result, f other = .ok result)
          ∧ f item = .error error := by
  refine ⟨exists_first_of_mapM_eq_error, ?_⟩
  rintro ⟨before, item, after, rfl, each, failed⟩
  induction before with
  | nil =>
      rw [List.nil_append, List.mapM_cons]
      exact bind_eq_error_iff.mpr (Or.inl failed)
  | cons first rest ih =>
      obtain ⟨⟨result, found⟩, later⟩ := List.forall_mem_cons.mp each
      rw [List.cons_append, List.mapM_cons]
      refine bind_eq_error_iff.mpr (Or.inr ⟨result, found, ?_⟩)
      exact bind_eq_error_iff.mpr (Or.inl (ih later))

/-- Results that are all successes are the items' own, one by one, by induction on the items. -/
theorem mapM_eq_ok_iff_forall₂ {f : α → Except ε β} {items : List α} {results : List β}
    : items.mapM f = .ok results
      ↔ List.Forall₂ (fun item result => f item = .ok result) items results := by
  induction items generalizing results with
  | nil =>
      rw [List.mapM_nil, List.forall₂_nil_left_iff]
      exact ⟨fun mapped => (Except.ok.inj mapped).symm, fun same => congrArg _ same.symm⟩
  | cons item rest ih =>
      rw [List.mapM_cons, bind_eq_ok_iff, List.forall₂_cons_left_iff]
      refine exists_congr fun first => ?_
      constructor
      · rintro ⟨found, mapped⟩
        obtain ⟨others, mappedRest, same⟩ := bind_eq_ok_iff.mp mapped
        exact ⟨others, found, ih.mp mappedRest, (Except.ok.inj same).symm⟩
      · rintro ⟨others, found, each, rfl⟩
        exact ⟨found, bind_eq_ok_iff.mpr ⟨others, ih.mpr each, rfl⟩⟩

theorem Logged.outcome_bind_eq_ok_iff {first : Logged ε α} {next : α → Logged ε β} {result : β}
    : (first >>= next).outcome = .ok result
      ↔ ∃ value, first.outcome = .ok value ∧ (next value).outcome = .ok result := by
  rw [outcome_bind]
  exact bind_eq_ok_iff

theorem Logged.outcome_map_eq_ok_iff {f : α → β} {first : Logged ε α} {result : β}
    : (f <$> first).outcome = .ok result
      ↔ ∃ value, first.outcome = .ok value ∧ f value = result := by
  rw [outcome_map]
  exact map_eq_ok_iff

theorem Logged.outcome_report_bind (events : List Event) (next : Unit → Logged ε α)
    : (report events >>= next).outcome = (next ()).outcome := by
  rw [outcome_bind, outcome_report]
  rfl

end Outcomes

-----------------------------------------------------------------------------------------
-- Rules
-----------------------------------------------------------------------------------------

namespace Reading

variable (reading : Reading) (shown : Beat) (line : Nat) (branches : Branches)

@[simp] theorem scope_afterBeat
    : (reading.afterBeat shown line).scope = .beat shown line reading.scope :=
  rfl

@[simp] theorem cursor_afterBeat : (reading.afterBeat shown line).cursor = reading.cursor :=
  rfl

@[simp] theorem scope_afterBlock
    : (reading.afterBlock line branches).scope = .block line branches reading.scope :=
  rfl

@[simp] theorem cursor_afterBlock : (reading.afterBlock line branches).cursor = reading.cursor :=
  rfl

end Reading

namespace Statement

def beat? : Statement → Option Beat
  | .scene content => some (.scene content)
  | .say speaker content => some (.say speaker content)
  | .think speaker content => some (.think speaker content)
  | _ => none

/-- Whether a statement means nothing where a scope is read. -/
def isSilent : Statement → Bool
  | .terminator | .label _ => true
  | _ => false

end Statement

namespace Line

mutual

/-- Lines from `cursor` up to `stop` are read as a scope, where `known` are the option names above
them. Branch labels are those of the `declared` options.
-/
inductive Reads (lines : List Line) (declared : List String)
    : Nat → Nat → List String → Reading → Prop where
  /-- No line is left. -/
  | runsOut {stop cursor known} (noLine : before? lines stop cursor = none)
    : Reads lines declared stop cursor known
        ⟨.runsOut (numberAt lines (stop - 1)), cursor, known⟩
  /-- The line means nothing here. -/
  | silent {stop cursor known line statement reading}
    (here : before? lines stop cursor = some line)
    (means : line.statement known = .ok statement) (isSilent : statement.isSilent = true)
    (rest : Reads lines declared stop (cursor + 1) known reading)
    : Reads lines declared stop cursor known reading
  /-- The line ends the dialogue. -/
  | ended {stop cursor known line} (here : before? lines stop cursor = some line)
    (means : line.statement known = .ok .ending)
    : Reads lines declared stop cursor known ⟨.ended line.number, cursor + 1, known⟩
  /-- The line closes the scope, after which the dialogue goes on. -/
  | dead {stop cursor known line} (here : before? lines stop cursor = some line)
    (means : line.statement known = .ok .dead)
    : Reads lines declared stop cursor known ⟨.dead line.number, cursor + 1, known⟩
  /-- The line is a beat. -/
  | beat {stop cursor known line statement shown reading}
    (here : before? lines stop cursor = some line)
    (means : line.statement known = .ok statement) (shows : statement.beat? = some shown)
    (rest : Reads lines declared stop (cursor + 1) known reading)
    : Reads lines declared stop cursor known (reading.afterBeat shown line.number)
  /-- The line opens an option block. -/
  | option {stop cursor known line name choices close reading}
    (here : before? lines stop cursor = some line)
    (means : line.statement known = .ok (.option name))
    (found : readOption lines cursor name = .ok (choices, close))
    (rest : Reads lines declared stop (close + 1) (name :: known) reading)
    : Reads lines declared stop cursor known
        (reading.afterBeat (.option name choices) line.number)
  /-- The line opens a choices block. -/
  | choices {stop cursor known line block branches later reading}
    (here : before? lines stop cursor = some line)
    (means : line.statement known = .ok .choices)
    (found : scanBlock lines declared cursor (cursor + 1) = .ok block)
    (bodies : ReadsBranches lines declared block.branches known branches later)
    (rest : Reads lines declared stop block.reconverge later reading)
    : Reads lines declared stop cursor known (reading.afterBlock line.number branches)

/-- The bodies of branches are read one after the other. -/
inductive ReadsBranches (lines : List Line) (declared : List String)
    : List Branch → List String → Branches → List String → Prop where
  | nil {known} : ReadsBranches lines declared [] known .nil known
  | cons {branch rest known reading others later}
    (body : Reads lines declared branch.stop branch.start known reading)
    (tail : ReadsBranches lines declared rest reading.known others later)
    : ReadsBranches lines declared (branch :: rest) known
        (.cons branch.guard reading.scope others) later

end

-----------------------------------------------------------------------------------------
-- What one line does to the scope that is read
-----------------------------------------------------------------------------------------

section Steps

variable {lines : List Line} {declared known : List String} {stop cursor : Nat} {line : Line}

theorem readScope_runsOut (noLine : before? lines stop cursor = none)
    : readScope lines declared stop cursor known
        = pure ⟨.runsOut (numberAt lines (stop - 1)), cursor, known⟩ := by
  rw [readScope, noLine]

/-- A fault of a statement is a fault of the scope. -/
theorem readScope_error {error : ScriptError} (here : before? lines stop cursor = some line)
    (means : line.statement known = .error error)
    : readScope lines declared stop cursor known = throw error := by
  rw [readScope, here]
  simp only [means]

/-- A line that means nothing is passed over, by cases on what it says. -/
theorem readScope_silent {statement : Statement} (here : before? lines stop cursor = some line)
    (means : line.statement known = .ok statement) (isSilent : statement.isSilent = true)
    : readScope lines declared stop cursor known
        = readScope lines declared stop (cursor + 1) known := by
  rw [readScope, here]
  cases statement with
  | terminator | label option => simp only [means]
  | _ => exact Bool.noConfusion isSilent

theorem readScope_ended (here : before? lines stop cursor = some line)
    (means : line.statement known = .ok .ending)
    : readScope lines declared stop cursor known
        = pure ⟨.ended line.number, cursor + 1, known⟩ := by
  rw [readScope, here]
  simp only [means]

theorem readScope_dead (here : before? lines stop cursor = some line)
    (means : line.statement known = .ok .dead)
    : readScope lines declared stop cursor known
        = pure ⟨.dead line.number, cursor + 1, known⟩ := by
  rw [readScope, here]
  simp only [means]

/-- After a beat the scope is read on from the next line, by cases on the beat. -/
theorem readScope_beat {statement : Statement} {shown : Beat}
    (here : before? lines stop cursor = some line)
    (means : line.statement known = .ok statement) (shows : statement.beat? = some shown)
    : readScope lines declared stop cursor known
        = Reading.afterBeat shown line.number
            <$> readScope lines declared stop (cursor + 1) known := by
  rw [readScope, here]
  cases statement with
  | scene _ | say _ _ | think _ _ =>
      obtain rfl := Option.some.inj shows
      simp only [means]
  | _ => cases shows

/-- After an option block the scope is read on from the line after it. -/
theorem readScope_option {name : String} {choices : List String} {close : Nat}
    (here : before? lines stop cursor = some line)
    (means : line.statement known = .ok (.option name))
    (found : readOption lines cursor name = .ok (choices, close))
    : readScope lines declared stop cursor known
        = Reading.afterBeat (.option name choices) line.number
            <$> readScope lines declared stop (close + 1) (name :: known) := by
  rw [readScope, here]
  simp only [means]
  split
  · next failed => cases found.symm.trans failed
  · next same =>
      obtain ⟨rfl, rfl⟩ := Prod.mk.inj (Except.ok.inj (found.symm.trans same))
      rfl

/-- A fault of an option block is a fault of the scope. -/
theorem readScope_option_error {name : String} {error : ScriptError}
    (here : before? lines stop cursor = some line)
    (means : line.statement known = .ok (.option name))
    (failed : readOption lines cursor name = .error error)
    : readScope lines declared stop cursor known = throw error := by
  rw [readScope, here]
  simp only [means]
  split
  · next same => rw [Except.error.inj (failed.symm.trans same)]
  · next found => cases failed.symm.trans found

/-- After a choices block, which is reported, the scope is read on from the line after it, with the
option names that its branches have made known.
-/
theorem readScope_block {block : Block} (here : before? lines stop cursor = some line)
    (means : line.statement known = .ok .choices)
    (found : scanBlock lines declared cursor (cursor + 1) = .ok block)
    : readScope lines declared stop cursor known
        = (do
            Logged.report
              [.blockFound line.number (numberAt lines block.close) block.labels.length]
            let (branches, later) ← readBranches lines cursor block.branches
              (fun branch _ => readScope lines declared branch.stop branch.start) known
            Reading.afterBlock line.number branches
              <$> readScope lines declared stop block.reconverge later) := by
  rw [readScope, here]
  simp only [means]
  split
  · next failed => cases found.symm.trans failed
  · next same =>
      obtain rfl := Except.ok.inj (found.symm.trans same)
      rfl

/-- What is reported of a choices block makes no difference to what is read. -/
theorem readScope_choices {block : Block} (here : before? lines stop cursor = some line)
    (means : line.statement known = .ok .choices)
    (found : scanBlock lines declared cursor (cursor + 1) = .ok block)
    : (readScope lines declared stop cursor known).outcome
        = (do
            let (branches, later) ← readBranches lines cursor block.branches
              (fun branch _ => readScope lines declared branch.stop branch.start) known
            Reading.afterBlock line.number branches
              <$> readScope lines declared stop block.reconverge later).outcome := by
  rw [readScope_block here means found, Logged.outcome_report_bind]

/-- A fault of a choices block is a fault of the scope. -/
theorem readScope_choices_error {error : ScriptError}
    (here : before? lines stop cursor = some line)
    (means : line.statement known = .ok .choices)
    (failed : scanBlock lines declared cursor (cursor + 1) = .error error)
    : readScope lines declared stop cursor known = throw error := by
  rw [readScope, here]
  simp only [means]
  split
  · next same => rw [Except.error.inj (failed.symm.trans same)]
  · next found => cases failed.symm.trans found

/-- After the body of a branch the other branches are read, whether or not the body is reported. -/
theorem readBranches_cons {branch : Branch} {rest : List Branch} {opened : Nat}
    (read : ∀ other ∈ branch :: rest, List String → Logged ScriptError Reading)
    : (readBranches lines opened (branch :: rest) read known).outcome
        = (do
            let body ← read branch List.mem_cons_self known
            let (others, later) ← readBranches lines opened rest
              (fun other member => read other (List.mem_cons_of_mem _ member)) body.known
            return (.cons branch.guard body.scope others, later)
              : Logged ScriptError (Branches × List String)).outcome := by
  rw [readBranches, Logged.outcome_bind, Logged.outcome_bind]
  congr 1
  funext body
  split
  · exact Logged.outcome_report_bind _ _
  · rfl

end Steps

-----------------------------------------------------------------------------------------
-- What is read is derived
-----------------------------------------------------------------------------------------

/-- Branches are derived if their bodies are, by induction on their list. -/
theorem readsBranches_of_readBranches {lines : List Line} {declared : List String} {opened : Nat}
    {branches : List Branch} {known : List String} {result : Branches × List String}
    (each : ∀ branch ∈ branches, ∀ known reading,
      (readScope lines declared branch.stop branch.start known).outcome = .ok reading
      → Reads lines declared branch.stop branch.start known reading)
    (h : (readBranches lines opened branches
      (fun branch _ => readScope lines declared branch.stop branch.start) known).outcome
        = .ok result)
    : ReadsBranches lines declared branches known result.1 result.2 := by
  induction branches generalizing known result with
  | nil =>
      obtain rfl := Except.ok.inj h
      exact .nil
  | cons branch rest ih =>
      rw [readBranches_cons] at h
      obtain ⟨reading, body, afterBody⟩ := Logged.outcome_bind_eq_ok_iff.mp h
      obtain ⟨⟨others, later⟩, tail, pair⟩ := Logged.outcome_bind_eq_ok_iff.mp afterBody
      obtain rfl := Except.ok.inj pair
      refine .cons (each branch List.mem_cons_self known reading body) ?_
      exact ih (fun other member => each other (List.mem_cons_of_mem _ member)) tail

/-- Every scope that is read is derived, by induction on the lines that are left. -/
theorem reads_of_readScope {lines : List Line} {declared : List String} {stop cursor : Nat}
    {known : List String} {reading : Reading}
    (h : (readScope lines declared stop cursor known).outcome = .ok reading)
    : Reads lines declared stop cursor known reading := by
  -- the first case is the end of the lines; the others are what a line at the cursor can say
  induction stop, cursor, known using readScope.induct lines declared generalizing reading with
  | case1 stop cursor known noLine =>
      rw [readScope_runsOut noLine] at h
      obtain rfl := Except.ok.inj h
      exact .runsOut noLine
  | case2 stop cursor known line here error means =>
      rw [readScope_error here means] at h
      cases h
  | case3 stop cursor known line here means ih
  | case4 stop cursor known line here _ means ih =>
      rw [readScope_silent here means rfl] at h
      exact .silent here means rfl (ih h)
  | case5 stop cursor known line here means =>
      rw [readScope_ended here means] at h
      obtain rfl := Except.ok.inj h
      exact .ended here means
  | case6 stop cursor known line here means =>
      rw [readScope_dead here means] at h
      obtain rfl := Except.ok.inj h
      exact .dead here means
  | case7 stop cursor known line here _ means ih
  | case8 stop cursor known line here _ _ means ih
  | case9 stop cursor known line here _ _ means ih =>
      rw [readScope_beat here means rfl] at h
      obtain ⟨rest, tail, rfl⟩ := Logged.outcome_map_eq_ok_iff.mp h
      exact .beat here means rfl (ih tail)
  | case10 stop cursor known line here name means error failed =>
      rw [readScope_option_error here means failed] at h
      cases h
  | case11 stop cursor known line here name means choices close found ih =>
      rw [readScope_option here means found] at h
      obtain ⟨rest, tail, rfl⟩ := Logged.outcome_map_eq_ok_iff.mp h
      exact .option here means found (ih tail)
  | case12 stop cursor known line here means error failed =>
      rw [readScope_choices_error here means failed] at h
      cases h
  | case13 stop cursor known line here means block found ihBranches ih =>
      rw [readScope_choices here means found] at h
      obtain ⟨⟨branches, later⟩, bodies, afterBodies⟩ := Logged.outcome_bind_eq_ok_iff.mp h
      obtain ⟨rest, tail, rfl⟩ := Logged.outcome_map_eq_ok_iff.mp afterBodies
      refine .choices here means found (readsBranches_of_readBranches ?_ bodies) (ih later tail)
      exact fun branch member known reading => ihBranches branch member known

-----------------------------------------------------------------------------------------
-- What is derived is read
-----------------------------------------------------------------------------------------

mutual

/-- Every scope that is derived is read, by induction on the derivation. -/
theorem Reads.readScope {lines : List Line} {declared : List String}
    : ∀ {stop cursor : Nat} {known : List String} {reading : Reading},
        Reads lines declared stop cursor known reading
        → (readScope lines declared stop cursor known).outcome = .ok reading
  | _, _, _, _, .runsOut noLine => by
      rw [readScope_runsOut noLine]
      rfl
  | _, _, _, _, .silent here means isSilent rest => by
      rw [readScope_silent here means isSilent]
      exact rest.readScope
  | _, _, _, _, .ended here means => by
      rw [readScope_ended here means]
      rfl
  | _, _, _, _, .dead here means => by
      rw [readScope_dead here means]
      rfl
  | _, _, _, _, .beat here means shows rest => by
      rw [readScope_beat here means shows]
      exact Logged.outcome_map_eq_ok_iff.mpr ⟨_, rest.readScope, rfl⟩
  | _, _, _, _, .option here means found rest => by
      rw [readScope_option here means found]
      exact Logged.outcome_map_eq_ok_iff.mpr ⟨_, rest.readScope, rfl⟩
  | _, _, _, _, .choices here means found bodies rest => by
      rw [readScope_choices here means found]
      refine Logged.outcome_bind_eq_ok_iff.mpr ⟨_, bodies.readBranches _, ?_⟩
      exact Logged.outcome_map_eq_ok_iff.mpr ⟨_, rest.readScope, rfl⟩

/-- All branches that are derived are read, by induction on the derivation. -/
theorem ReadsBranches.readBranches {lines : List Line} {declared : List String}
    : ∀ {branches : List Branch} {known later : List String} {result : Branches},
        ReadsBranches lines declared branches known result later
        → ∀ opened,
            (readBranches lines opened branches
              (fun branch _ => Line.readScope lines declared branch.stop branch.start)
                known).outcome
              = .ok (result, later)
  | _, _, _, _, .nil, _ => rfl
  | _, _, _, _, .cons body tail, opened => by
      rw [readBranches_cons]
      refine Logged.outcome_bind_eq_ok_iff.mpr ⟨_, body.readScope, ?_⟩
      exact Logged.outcome_bind_eq_ok_iff.mpr ⟨_, tail.readBranches opened, rfl⟩

end

/-- A scope is read exactly if it is derived. -/
theorem readScope_eq_ok_iff {lines : List Line} {declared : List String} {stop cursor : Nat}
    {known : List String} {reading : Reading}
    : (readScope lines declared stop cursor known).outcome = .ok reading
      ↔ Reads lines declared stop cursor known reading :=
  ⟨reads_of_readScope, Reads.readScope⟩

-----------------------------------------------------------------------------------------
-- Inversion
-----------------------------------------------------------------------------------------

section Inversion

variable {lines : List Line} {declared known : List String} {stop cursor : Nat} {line : Line}
  {statement : Statement} {reading : Reading}

theorem Reads.unique {other : Reading} (reads : Reads lines declared stop cursor known reading)
    (again : Reads lines declared stop cursor known other)
    : reading = other :=
  Except.ok.inj (reads.readScope.symm.trans again.readScope)

theorem ReadsBranches.unique {branches : List Branch} {later last : List String}
    {result other : Branches} (bodies : ReadsBranches lines declared branches known result later)
    (again : ReadsBranches lines declared branches known other last)
    : result = other ∧ later = last :=
  Prod.mk.inj (Except.ok.inj ((bodies.readBranches 0).symm.trans (again.readBranches 0)))

/-- From a line that means nothing, what is read is read from the next line on. -/
theorem Reads.of_silent (reads : Reads lines declared stop cursor known reading)
    (here : before? lines stop cursor = some line) (means : line.statement known = .ok statement)
    (isSilent : statement.isSilent = true)
    : Reads lines declared stop (cursor + 1) known reading := by
  apply reads_of_readScope
  rw [← readScope_silent here means isSilent]
  exact reads.readScope

theorem Reads.of_beat {shown : Beat} (reads : Reads lines declared stop cursor known reading)
    (here : before? lines stop cursor = some line) (means : line.statement known = .ok statement)
    (shows : statement.beat? = some shown)
    : ∃ rest,
        Reads lines declared stop (cursor + 1) known rest
        ∧ rest.afterBeat shown line.number = reading := by
  have read := reads.readScope
  rw [readScope_beat here means shows] at read
  obtain ⟨rest, tail, same⟩ := Logged.outcome_map_eq_ok_iff.mp read
  exact ⟨rest, reads_of_readScope tail, same⟩

theorem Reads.of_option {name : String} {choices : List String} {close : Nat}
    (reads : Reads lines declared stop cursor known reading)
    (here : before? lines stop cursor = some line)
    (means : line.statement known = .ok (.option name))
    (found : readOption lines cursor name = .ok (choices, close))
    : ∃ rest,
        Reads lines declared stop (close + 1) (name :: known) rest
        ∧ rest.afterBeat (.option name choices) line.number = reading := by
  have read := reads.readScope
  rw [readScope_option here means found] at read
  obtain ⟨rest, tail, same⟩ := Logged.outcome_map_eq_ok_iff.mp read
  exact ⟨rest, reads_of_readScope tail, same⟩

theorem Reads.of_choices {block : Block} (reads : Reads lines declared stop cursor known reading)
    (here : before? lines stop cursor = some line) (means : line.statement known = .ok .choices)
    (found : scanBlock lines declared cursor (cursor + 1) = .ok block)
    : ∃ branches later rest,
        ReadsBranches lines declared block.branches known branches later
        ∧ Reads lines declared stop block.reconverge later rest
        ∧ rest.afterBlock line.number branches = reading := by
  have read := reads.readScope
  rw [readScope_choices here means found] at read
  obtain ⟨⟨branches, later⟩, bodies, afterBodies⟩ := Logged.outcome_bind_eq_ok_iff.mp read
  obtain ⟨rest, tail, same⟩ := Logged.outcome_map_eq_ok_iff.mp afterBodies
  have each := readsBranches_of_readBranches (fun _ _ _ _ => reads_of_readScope) bodies
  exact ⟨branches, later, rest, each, reads_of_readScope tail, same⟩

end Inversion

end Line

end Dialogue
