import Dialogue.Proofs.Script.Fidelity
import Dialogue.Script.Assembly

/-! What is done to assemble a script follows from its outline. Every slot is added where its number
is known beforehand, so the acts of a scope are laid out like its slots, and assembling succeeds and
fails as reading does.
-/

namespace Dialogue

-----------------------------------------------------------------------------------------
-- Slots that are added
-----------------------------------------------------------------------------------------

namespace Act

def isPush : Act → Bool
  | .push _ _ => true
  | _ => false

@[simp] theorem countP_isPush_links (waiting : List Nat) (target : Nat)
    : (links waiting target).countP isPush = 0 := by
  simp [links, isPush, Function.comp_def]

@[simp] theorem countP_isPush_emit (current : Nat) (waiting : List Nat) (node : Node) (line : Nat)
    : (emit current waiting node line).countP isPush = 0 := by
  simp [emit, isPush]

end Act

namespace Graph

variable (graph : Graph)

theorem replay_cons (act : Act) (rest : List Act)
    : graph.replay (act :: rest) = (graph.perform act).replay rest :=
  rfl

theorem replay_append (first second : List Act)
    : graph.replay (first ++ second) = (graph.replay first).replay second :=
  List.foldl_append

theorem size_perform (act : Act)
    : (graph.perform act).size = graph.size + (if act.isPush then 1 else 0) := by
  cases act <;> simp [perform, size, Act.isPush]

/-- The slots of a graph are those that were there and those that were added, by induction on the
acts.
-/
theorem size_replay (acts : List Act)
    : (graph.replay acts).size = graph.size + acts.countP Act.isPush := by
  induction acts generalizing graph with
  | nil => rfl
  | cons act rest ih =>
      rw [replay_cons, ih, size_perform, List.countP_cons]
      omega

end Graph

-----------------------------------------------------------------------------------------
-- The acts of an outline
-----------------------------------------------------------------------------------------

/-- The loose ends of a scope that goes on in the slot `current`. -/
def Scope.loose (current : Nat) : Scope → List Nat
  | .beat _ _ rest => rest.loose (current + 1)
  | .block _ branches rest => rest.loose (current + 1 + branches.size)
  | .dead _ | .runsOut _ => [current]
  | .ended _ | .unfilled => []

/-- The loose ends of branches, the first slot of which has the number `base`. -/
def Branches.loose (base : Nat) : Branches → List Nat
  | .nil => []
  | .cons _ body rest => body.loose base ++ rest.loose (base + body.size)

mutual

/-- What is done for a scope that goes on in the slot `current`, while the loose ends of the block
right before are waiting.
-/
def Scope.acts (current : Nat) (waiting : List Nat) : Scope → List Act
  | .beat shown line rest =>
      Act.emit current waiting (.beat shown) line
        ++ [.push .empty 0, .link current (current + 1)]
        ++ rest.acts (current + 1) []
  | .block line branches rest =>
      Act.emit current waiting (.choice branches.guards) line
        ++ branches.acts current (current + 1)
        ++ [.push .empty 0]
        ++ rest.acts (current + 1 + branches.size) (branches.loose (current + 1))
  | .ended line => Act.emit current waiting .ending line
  | .dead line | .runsOut line => Act.emit current waiting .dead line
  | .unfilled => []

/-- What is done for the branches of a choice, the first slot of which has the number `base`. -/
def Branches.acts (choice base : Nat) : Branches → List Act
  | .nil => []
  | .cons _ body rest =>
      [.push .empty 0]
        ++ body.acts base []
        ++ [.leave (body.loose base), .link choice base]
        ++ rest.acts choice (base + body.size)

end

/-- What is done for a whole dialogue with this outline. -/
def Scope.history (outline : Scope) : List Act :=
  [.push .empty 0]
    ++ outline.acts 1 []
    ++ [.leave (outline.loose 1), .link 0 1]
    ++ (if outline.isLoose then
          .push .ending 0 :: Act.links (outline.loose 1) (outline.size + 1)
        else [])

mutual

/-- All slots of a scope but the first are added by its acts, by induction on the outline. -/
theorem Scope.countP_acts (scope : Scope) (current : Nat) (waiting : List Nat)
    : (scope.acts current waiting).countP Act.isPush + 1 = scope.size := by
  cases scope with
  | beat shown line rest =>
      have inRest := rest.countP_acts (current + 1) []
      simp [Scope.acts, Scope.size, List.countP_cons, Act.isPush]
      omega
  | block line branches rest =>
      have inBranches := branches.countP_acts current (current + 1)
      have inRest :=
        rest.countP_acts (current + 1 + branches.size) (branches.loose (current + 1))
      simp [Scope.acts, Scope.size, List.countP_cons, Act.isPush]
      omega
  | ended line | dead line | runsOut line | unfilled => simp [Scope.acts, Scope.size]

theorem Branches.countP_acts (branches : Branches) (choice base : Nat)
    : (branches.acts choice base).countP Act.isPush = branches.size := by
  cases branches with
  | nil => simp [Branches.acts, Branches.size]
  | cons guard body rest =>
      have inBody := body.countP_acts base []
      have inRest := rest.countP_acts choice (base + body.size)
      simp [Branches.acts, Branches.size, List.countP_cons, Act.isPush]
      omega

end

/-- Where a scope can be left it has a loose end, by induction on the outline. -/
theorem Scope.isEmpty_loose (scope : Scope) (current : Nat)
    : (scope.loose current).isEmpty = !scope.isLoose := by
  cases scope with
  | beat shown line rest => exact rest.isEmpty_loose (current + 1)
  | block line branches rest => exact rest.isEmpty_loose (current + 1 + branches.size)
  | ended line | dead line | runsOut line | unfilled => rfl

theorem Branches.isEmpty_loose (branches : Branches) (base : Nat)
    : (branches.loose base).isEmpty = !branches.anyLoose := by
  cases branches with
  | nil => rfl
  | cons guard body rest =>
      rw [loose, anyLoose, Bool.not_or, ← body.isEmpty_loose base,
        ← rest.isEmpty_loose (base + body.size)]
      cases body.loose base <;> rfl

-----------------------------------------------------------------------------------------
-- Assembling and reading
-----------------------------------------------------------------------------------------

namespace Scope

/-- What becomes of a scope where its lines run out: in a branch the dialogue goes on behind the
block, and at the end of a script only if loose ends are waiting.
-/
def finish (inBranch waiting : Bool) (scope : Scope) : Scope :=
  if inBranch then scope else scope.settle waiting

variable (inBranch waiting : Bool) (line : Nat)

theorem finish_beat (shown : Beat) (rest : Scope)
    : (Scope.beat shown line rest).finish inBranch waiting
        = .beat shown line (rest.finish inBranch false) := by
  cases inBranch <;> rfl

theorem finish_block (branches : Branches) (rest : Scope)
    : (Scope.block line branches rest).finish inBranch waiting
        = .block line branches (rest.finish inBranch branches.anyLoose) := by
  cases inBranch <;> rfl

theorem finish_ended : (Scope.ended line).finish inBranch waiting = .ended line := by
  cases inBranch <;> rfl

theorem finish_dead : (Scope.dead line).finish inBranch waiting = .dead line := by
  cases inBranch <;> rfl

theorem finish_runsOut
    : (Scope.runsOut line).finish inBranch waiting
        = if inBranch || waiting then .runsOut line else .unfilled := by
  cases inBranch <;> rfl

end Scope

namespace Assembly

variable (assembly : Assembly)

/-- The same moment with other option names known. -/
def knowing (known : List String) : Assembly :=
  { assembly with known }

@[simp] theorem knowing_known : assembly.knowing assembly.known = assembly :=
  rfl

@[simp] theorem fresh_knowing (known : List String)
    : (assembly.knowing known).fresh = assembly.fresh :=
  rfl

@[simp] theorem fresh_learn (name : String) : (assembly.learn name).fresh = assembly.fresh :=
  rfl

/-- Acts take as many new numbers as they add slots. -/
@[simp] theorem fresh_perform (acts : List Act)
    : (assembly.perform acts).fresh = assembly.fresh + acts.countP Act.isPush := by
  rw [fresh, graph, perform, Graph.replay_append, Graph.size_replay]
  rfl

@[simp] theorem known_perform (acts : List Act)
    : (assembly.perform acts).known = assembly.known :=
  rfl

@[simp] theorem perform_nil : assembly.perform [] = assembly := by
  simp [perform]

@[simp] theorem perform_perform (first second : List Act)
    : (assembly.perform first).perform second = assembly.perform (first ++ second) := by
  simp [perform]

@[simp] theorem perform_knowing (known : List String) (acts : List Act)
    : (assembly.knowing known).perform acts = (assembly.perform acts).knowing known :=
  rfl

@[simp] theorem knowing_knowing (first second : List String)
    : (assembly.knowing first).knowing second = assembly.knowing second :=
  rfl

theorem present_eq {current : Nat} (fresh : assembly.fresh = current + 1) (waiting : List Nat)
    (shown : Beat) (line : Nat)
    : assembly.present current waiting shown line
        = (current + 1, assembly.perform
            (Act.emit current waiting (.beat shown) line
              ++ [.push .empty 0, .link current (current + 1)])) := by
  simp [present, fresh]

end Assembly

/-- What assembling a scope that is read gives: its loose ends, and what has been done then. -/
def Reading.assembled (inBranch : Bool) (current : Nat) (waiting : List Nat) (assembly : Assembly)
    (reading : Reading)
    : List Nat × Assembly :=
  let scope := reading.scope.finish inBranch (!waiting.isEmpty)
  (scope.loose current, (assembly.perform (scope.acts current waiting)).knowing reading.known)

namespace Reading

variable (inBranch : Bool) (current : Nat) (waiting : List Nat) (assembly : Assembly)
  (reading : Reading)

theorem assembled_branch
    : reading.assembled true current waiting assembly
        = (reading.scope.loose current,
            (assembly.perform (reading.scope.acts current waiting)).knowing reading.known) :=
  rfl

/-- Which names are known afterwards is read, whatever was known before. -/
@[simp] theorem assembled_knowing (known : List String)
    : assembled inBranch current waiting (assembly.knowing known)
        = assembled inBranch current waiting assembly :=
  rfl

/-- A beat is assembled before what is read after it, by cases on what is read. -/
theorem assembled_afterBeat (shown : Beat) (line : Nat) (outcome : Except ScriptError Reading)
    : assembled inBranch current waiting assembly <$> afterBeat shown line <$> outcome
        = assembled inBranch (current + 1) []
            (assembly.perform (Act.emit current waiting (.beat shown) line
              ++ [.push .empty 0, .link current (current + 1)]))
          <$> outcome := by
  cases outcome with
  | error error => rfl
  | ok reading =>
      simp only [Functor.map, Except.map, assembled, scope_afterBeat, Scope.finish_beat,
        Scope.loose, Scope.acts, Assembly.perform_perform]
      rfl

/-- A block is assembled before what is read after it, by cases on what is read. -/
theorem assembled_afterBlock (line : Nat) (branches : Branches)
    (outcome : Except ScriptError Reading)
    : assembled inBranch current waiting assembly <$> afterBlock line branches <$> outcome
        = assembled inBranch (current + 1 + branches.size) (branches.loose (current + 1))
            (assembly.perform (Act.emit current waiting (.choice branches.guards) line
              ++ branches.acts current (current + 1) ++ [.push .empty 0]))
          <$> outcome := by
  cases outcome with
  | error error => rfl
  | ok reading =>
      simp only [Functor.map, Except.map, assembled, scope_afterBlock, Scope.finish_block,
        Scope.loose, Scope.acts, Assembly.perform_perform, Branches.isEmpty_loose, Bool.not_not]
      rfl

end Reading

namespace Line

-----------------------------------------------------------------------------------------
-- What one line does to the scope that is assembled
-----------------------------------------------------------------------------------------

section Steps

variable {lines : List Line} {declared : List String} {inBranch : Bool} {stop cursor current : Nat}
  {waiting : List Nat} {assembly : Assembly} {line : Line}

theorem assembleFrom_runsOut (noLine : before? lines stop cursor = none)
    : assembleFrom lines declared inBranch stop cursor current waiting assembly
        = if inBranch || !waiting.isEmpty then
            .ok ([current], assembly.perform
              (Act.emit current waiting .dead (numberAt lines (stop - 1))))
          else .ok ([], assembly) := by
  rw [assembleFrom, noLine]

theorem assembleFrom_error {error : ScriptError} (here : before? lines stop cursor = some line)
    (means : line.statement assembly.known = .error error)
    : assembleFrom lines declared inBranch stop cursor current waiting assembly
        = .error error := by
  rw [assembleFrom, here]
  simp only [means]

/-- A line that means nothing is passed over, by cases on what it says. -/
theorem assembleFrom_silent {statement : Statement}
    (here : before? lines stop cursor = some line)
    (means : line.statement assembly.known = .ok statement) (isSilent : statement.isSilent = true)
    : assembleFrom lines declared inBranch stop cursor current waiting assembly
        = assembleFrom lines declared inBranch stop (cursor + 1) current waiting assembly := by
  rw [assembleFrom, here]
  cases statement with
  | terminator | label option => simp only [means]
  | _ => exact Bool.noConfusion isSilent

theorem assembleFrom_ended (here : before? lines stop cursor = some line)
    (means : line.statement assembly.known = .ok .ending)
    : assembleFrom lines declared inBranch stop cursor current waiting assembly
        = .ok ([], assembly.perform (Act.emit current waiting .ending line.number)) := by
  rw [assembleFrom, here]
  simp only [means]

theorem assembleFrom_dead (here : before? lines stop cursor = some line)
    (means : line.statement assembly.known = .ok .dead)
    : assembleFrom lines declared inBranch stop cursor current waiting assembly
        = .ok ([current], assembly.perform (Act.emit current waiting .dead line.number)) := by
  rw [assembleFrom, here]
  simp only [means]

/-- After a beat the scope goes on in the slot that was added last, by cases on the beat. -/
theorem assembleFrom_beat {statement : Statement} {shown : Beat}
    (here : before? lines stop cursor = some line)
    (means : line.statement assembly.known = .ok statement) (shows : statement.beat? = some shown)
    (fresh : assembly.fresh = current + 1)
    : assembleFrom lines declared inBranch stop cursor current waiting assembly
        = assembleFrom lines declared inBranch stop (cursor + 1) (current + 1) []
            (assembly.perform (Act.emit current waiting (.beat shown) line.number
              ++ [.push .empty 0, .link current (current + 1)])) := by
  rw [assembleFrom, here]
  cases statement with
  | scene _ | say _ _ | think _ _ =>
      obtain rfl := Option.some.inj shows
      simp only [means, assembly.present_eq fresh]
  | _ => cases shows

/-- After an option block the scope goes on in the slot that was added last. -/
theorem assembleFrom_option {name : String} {choices : List String} {close : Nat}
    (here : before? lines stop cursor = some line)
    (means : line.statement assembly.known = .ok (.option name))
    (found : readOption lines cursor name = .ok (choices, close))
    (fresh : assembly.fresh = current + 1)
    : assembleFrom lines declared inBranch stop cursor current waiting assembly
        = assembleFrom lines declared inBranch stop (close + 1) (current + 1) []
            ((assembly.perform
              (Act.emit current waiting (.beat (.option name choices)) line.number
                ++ [.push .empty 0, .link current (current + 1)])).learn name) := by
  rw [assembleFrom, here]
  simp only [means]
  split
  · next failed => cases found.symm.trans failed
  · next same =>
      obtain ⟨rfl, rfl⟩ := Prod.mk.inj (Except.ok.inj (found.symm.trans same))
      rw [(assembly.learn name).present_eq fresh]
      rfl

theorem assembleFrom_option_error {name : String} {error : ScriptError}
    (here : before? lines stop cursor = some line)
    (means : line.statement assembly.known = .ok (.option name))
    (failed : readOption lines cursor name = .error error)
    : assembleFrom lines declared inBranch stop cursor current waiting assembly
        = .error error := by
  rw [assembleFrom, here]
  simp only [means]
  split
  · next same => rw [Except.error.inj (failed.symm.trans same)]
  · next found => cases failed.symm.trans found

/-- After a choices block the scope goes on in a slot of its own, while the loose ends of the
branches are waiting.
-/
theorem assembleFrom_choices {block : Block} (here : before? lines stop cursor = some line)
    (means : line.statement assembly.known = .ok .choices)
    (found : scanBlock lines declared cursor (cursor + 1) = .ok block)
    : assembleFrom lines declared inBranch stop cursor current waiting assembly
        = (do
            let (loose, ended) ← assembleBranches current block.branches
              (fun branch _ head =>
                assembleFrom lines declared true branch.stop branch.start head [])
              (assembly.perform (Act.emit current waiting
                (.choice (block.branches.map Branch.guard)) line.number))
            assembleFrom lines declared inBranch stop block.reconverge ended.fresh loose
              (ended.perform [.push .empty 0])) := by
  rw [assembleFrom, here]
  simp only [means]
  split
  · next failed => cases found.symm.trans failed
  · next same =>
      obtain rfl := Except.ok.inj (found.symm.trans same)
      rw [Block.branches, Block.guards_branchesUpTo]

theorem assembleFrom_choices_error {error : ScriptError}
    (here : before? lines stop cursor = some line)
    (means : line.statement assembly.known = .ok .choices)
    (failed : scanBlock lines declared cursor (cursor + 1) = .error error)
    : assembleFrom lines declared inBranch stop cursor current waiting assembly
        = .error error := by
  rw [assembleFrom, here]
  simp only [means]
  split
  · next same => rw [Except.error.inj (failed.symm.trans same)]
  · next found => cases failed.symm.trans found

/-- After the body of a branch, to which the choice is linked, the other branches are assembled. By
cases on what becomes of the body.
-/
theorem assembleBranches_cons {choice : Nat} {branch : Branch} {rest : List Branch}
    (read : ∀ other ∈ branch :: rest,
      Nat → Assembly → Except ScriptError (List Nat × Assembly))
    : assembleBranches choice (branch :: rest) read assembly
        = (do
            let (loose, ended) ←
              read branch List.mem_cons_self assembly.fresh (assembly.perform [.push .empty 0])
            let (others, last) ← assembleBranches choice rest
              (fun other member => read other (List.mem_cons_of_mem _ member))
              (ended.perform [.leave loose, .link choice assembly.fresh])
            return (loose ++ others, last)) := by
  rw [assembleBranches, Assembly.scope]
  cases read branch List.mem_cons_self assembly.fresh (assembly.perform [.push .empty 0]) with
  | error error => rfl
  | ok result =>
      obtain ⟨loose, ended⟩ := result
      simp only [bind, Except.bind, pure, Except.pure, Assembly.perform_perform,
        List.singleton_append]

end Steps

-----------------------------------------------------------------------------------------
-- What is read is assembled
-----------------------------------------------------------------------------------------

section Assembling

variable {lines : List Line} {declared : List String} {assembly : Assembly}

/-- Branches are assembled as they are read if their bodies are, by induction on their list. -/
theorem assembleBranches_eq {branches : List Branch} {base : Nat} (opened choice : Nat)
    (each : ∀ branch ∈ branches, ∀ (assembly : Assembly) head,
      assembly.fresh = head + 1
      → assembleFrom lines declared true branch.stop branch.start head [] assembly
        = Reading.assembled true head [] assembly
          <$> (readScope lines declared branch.stop branch.start assembly.known).outcome)
    (fresh : assembly.fresh = base)
    : assembleBranches choice branches
          (fun branch _ head =>
            assembleFrom lines declared true branch.stop branch.start head [])
          assembly
        = (fun (result, later) =>
              (result.loose base, (assembly.perform (result.acts choice base)).knowing later))
          <$> (readBranches lines opened branches
            (fun branch _ => readScope lines declared branch.stop branch.start)
              assembly.known).outcome := by
  induction branches generalizing assembly base with
  | nil => simp [assembleBranches, readBranches, Branches.loose, Branches.acts]
  | cons branch rest ih =>
      have body := each branch List.mem_cons_self (assembly.perform [.push .empty 0]) base
        (by simp [fresh, Act.isPush])
      rw [readBranches_cons, assembleBranches_cons, fresh, body, Assembly.known_perform]
      simp only [Logged.outcome_bind, Logged.outcome_pure]
      cases (readScope lines declared branch.stop branch.start assembly.known).outcome with
      | error error => rfl
      | ok reading =>
          let ended := (assembly.perform
            ([.push .empty 0] ++ reading.scope.acts base []
              ++ [.leave (reading.scope.loose base), .link choice base])).knowing reading.known
          have onward : ended.fresh = base + reading.scope.size := by
            have inBody := reading.scope.countP_acts base []
            simp [ended, fresh, Act.isPush, List.countP_cons]
            omega
          have tail := ih (fun other member => each other (List.mem_cons_of_mem _ member)) onward
          have names : ended.known = reading.known := rfl
          simp only [Functor.map, Except.map, bind, Except.bind, Reading.assembled_branch,
            Assembly.perform_perform, Assembly.perform_knowing, names] at tail ⊢
          rw [tail]
          cases (readBranches lines opened rest
            (fun branch _ => readScope lines declared branch.stop branch.start)
              reading.known).outcome with
          | error error => rfl
          | ok result => simp [ended, Branches.loose, Branches.acts, pure, Except.pure]

/-- A scope is assembled as it is read, by induction on the lines that are left. -/
theorem assembleFrom_eq {inBranch : Bool} {stop cursor current : Nat} {waiting : List Nat}
    {known : List String} (fresh : assembly.fresh = current + 1) (same : assembly.known = known)
    : assembleFrom lines declared inBranch stop cursor current waiting assembly
        = Reading.assembled inBranch current waiting assembly
          <$> (readScope lines declared stop cursor known).outcome := by
  -- the first case is the end of the lines; the others are what a line at the cursor can say
  induction stop, cursor, known using readScope.induct lines declared
    generalizing inBranch current waiting assembly with
  | case1 stop cursor known noLine =>
      subst same
      rw [readScope_runsOut noLine, assembleFrom_runsOut noLine]
      simp only [Logged.outcome_pure, Functor.map, Except.map, Reading.assembled,
        Scope.finish_runsOut]
      split
      · rfl
      · simp [Scope.loose, Scope.acts]
  | case2 stop cursor known line here error means =>
      subst same
      rw [readScope_error here means, assembleFrom_error here means]
      rfl
  | case3 stop cursor known line here means ih
  | case4 stop cursor known line here _ means ih =>
      subst same
      rw [readScope_silent here means rfl, assembleFrom_silent here means rfl]
      exact ih fresh rfl
  | case5 stop cursor known line here means =>
      subst same
      rw [readScope_ended here means, assembleFrom_ended here means]
      simp only [Logged.outcome_pure, Functor.map, Except.map, Reading.assembled,
        Scope.finish_ended]
      rfl
  | case6 stop cursor known line here means =>
      subst same
      rw [readScope_dead here means, assembleFrom_dead here means]
      simp only [Logged.outcome_pure, Functor.map, Except.map, Reading.assembled,
        Scope.finish_dead]
      rfl
  | case7 stop cursor known line here _ means ih
  | case8 stop cursor known line here _ _ means ih
  | case9 stop cursor known line here _ _ means ih =>
      subst same
      rw [readScope_beat here means rfl, assembleFrom_beat here means rfl fresh,
        Logged.outcome_map, Reading.assembled_afterBeat]
      exact ih (by simp [fresh, Act.isPush, List.countP_cons]) rfl
  | case10 stop cursor known line here name means error failed =>
      subst same
      rw [readScope_option_error here means failed, assembleFrom_option_error here means failed]
      rfl
  | case11 stop cursor known line here name means choices close found ih =>
      subst same
      rw [readScope_option here means found, assembleFrom_option here means found fresh,
        Logged.outcome_map, Reading.assembled_afterBeat]
      exact ih (by simp [fresh, Act.isPush, List.countP_cons]) rfl
  | case12 stop cursor known line here means error failed =>
      subst same
      rw [readScope_choices_error here means failed, assembleFrom_choices_error here means failed]
      rfl
  | case13 stop cursor known line here means block found ihBranches ih =>
      subst same
      have emitted
          : (assembly.perform (Act.emit current waiting (.choice (block.branches.map Branch.guard))
              line.number)).fresh
            = current + 1 := by
        simpa using fresh
      have bodies := assembleBranches_eq cursor current
        (fun branch member assembly head fresh => ihBranches branch member _ fresh rfl) emitted
      rw [readScope_choices here means found, assembleFrom_choices here means found, bodies,
        Logged.outcome_bind, Assembly.known_perform]
      cases read : (readBranches lines cursor block.branches
        (fun branch _ => readScope lines declared branch.stop branch.start)
          assembly.known).outcome with
      | error error => rfl
      | ok result =>
          obtain ⟨branches, later⟩ := result
          have guards : branches.guards = block.branches.map Branch.guard :=
            (readsBranches_of_readBranches (fun _ _ _ _ => reads_of_readScope) read).proper.1
          let passed := Act.emit current waiting (.choice branches.guards) line.number
            ++ branches.acts current (current + 1)
          have next : (assembly.perform passed).fresh = current + 1 + branches.size := by
            simp [passed, fresh, branches.countP_acts]
          have onward
              : ((assembly.perform (passed ++ [.push .empty 0])).knowing later).fresh
                = current + 1 + branches.size + 1 := by
            rw [Assembly.fresh_knowing, ← Assembly.perform_perform, Assembly.fresh_perform, next]
            rfl
          show assembleFrom lines declared inBranch stop block.reconverge _ _ _
            = _ <$> (Reading.afterBlock line.number branches
                <$> readScope lines declared stop block.reconverge later).outcome
          rw [Logged.outcome_map, Reading.assembled_afterBlock, ← guards]
          simp only [Assembly.perform_perform, Assembly.perform_knowing, Assembly.fresh_knowing]
          rw [next, ih later onward rfl, Reading.assembled_knowing]

/-- A whole script is assembled as its scope is read and settled. -/
theorem assembleScript_eq (lines : List Line) (declared : List String)
    : assembleScript lines declared
        = (fun reading => ⟨(reading.scope.settle false).history, reading.known⟩)
          <$> (readScope lines declared lines.length 0 []).outcome := by
  have opened : (Assembly.start.perform [.push .empty 0]).fresh = 1 + 1 := rfl
  have known : (Assembly.start.perform [.push .empty 0]).known = [] := rfl
  have head : Assembly.start.fresh = 1 := rfl
  rw [assembleScript, Assembly.scope, head, assembleFrom_eq opened known]
  cases (readScope lines declared lines.length 0 []).outcome with
  | error error => rfl
  | ok reading =>
      let outline := reading.scope.settle false
      let linked :=
        ((((Assembly.start.perform [.push .empty 0]).perform (outline.acts 1 [])).knowing
          reading.known).perform [.leave (outline.loose 1)]).perform [.link 0 1]
      have fresh : linked.fresh = outline.size + 1 := by
        have inOutline := outline.countP_acts 1 []
        simp [linked, head, Act.isPush, List.countP_cons]
        omega
      show (if (outline.loose 1).isEmpty then Except.ok linked
          else .ok (linked.perform (.push .ending 0 :: Act.links (outline.loose 1) linked.fresh)))
        = .ok ⟨outline.history, reading.known⟩
      rw [outline.isEmpty_loose, fresh]
      cases loose : outline.isLoose <;>
      simp [Scope.history, loose, linked, Assembly.perform, Assembly.knowing, Assembly.start]

/-- Lines are assembled by declaring the options that they open, and reading their scope with these.
-/
theorem assemble_eq {lines : List Line} (someLine : lines ≠ [])
    : assemble lines
        = (optionNames lines >>= fun declared =>
            (fun reading => (reading.scope.settle false).history)
              <$> (readScope lines declared lines.length 0 []).outcome) := by
  have notEmpty : lines.isEmpty = false := List.isEmpty_eq_false_iff.mpr someLine
  simp only [assemble, notEmpty, Bool.false_eq_true, if_false, assembleScript_eq]
  cases optionNames lines with
  | error error => rfl
  | ok declared =>
      simp only [bind, Except.bind]
      cases (readScope lines declared lines.length 0 []).outcome <;> rfl

end Assembling

end Line

end Dialogue
