import Dialogue.Log.Logged
import Dialogue.Script.Block
import Dialogue.Script.Outline

/-! Reading the outline of a script from its lines. Choices blocks are found by their extent first
and their branches then read one by one; what stands in a branch after its end is passed over.
-/

namespace Dialogue

/-- A scope that was read, the index of the first line after it, and the option names that are
known from there on.
-/
structure Reading where
  scope : Scope
  cursor : Nat
  known : List String

namespace Reading

def afterBeat (beat : Beat) (line : Nat) (reading : Reading) : Reading :=
  { reading with scope := .beat beat line reading.scope }

def afterBlock (line : Nat) (branches : Branches) (reading : Reading) : Reading :=
  { reading with scope := .block line branches reading.scope }

end Reading

namespace Line

/-- The choice that a line inside an option block gives: its content, or its tag alone. -/
def choice (line : Line) : String :=
  if line.content.isEmpty then line.first?.getD "" else line.content

/-- The choices on the lines up to the next sole closing tag, and the index of that tag. -/
def choicesFrom (index : Nat) : List Line → Option (List String × Nat)
  | [] => none
  | line :: rest =>
      if line.isTerminator then some ([], index)
      else
        (choicesFrom (index + 1) rest).map fun (choices, close) => (line.choice :: choices, close)

/-- Reads the option block that the line at `opened` opens: its choices, and the index of the line
that closes it.
-/
def readOption (lines : List Line) (opened : Nat) (name : String)
    : Except ScriptError (List String × Nat) :=
  match choicesFrom (opened + 1) (lines.drop (opened + 1)) with
  | none => .error (.unterminatedOption name (numberAt lines opened))
  | some ([], _) => .error (.emptyOption name (numberAt lines opened))
  | some (choices, close) => .ok (choices, close)

/-- The closing tag is at the first index looked at or after it, by induction on the lines. -/
theorem le_of_choicesFrom {index close : Nat} {lines : List Line} {choices : List String}
    (h : choicesFrom index lines = some (choices, close))
    : index ≤ close := by
  induction lines generalizing index choices with
  | nil => simp [choicesFrom] at h
  | cons line rest ih =>
      unfold choicesFrom at h
      split at h
      · simp only [Option.some.injEq, Prod.mk.injEq] at h
        omega
      · obtain ⟨⟨found, last⟩, inner, same⟩ := Option.map_eq_some_iff.mp h
        obtain ⟨-, rfl⟩ := Prod.mk.inj same
        have := ih inner
        omega

/-- An option block closes after the line that opens it. -/
theorem lt_of_readOption {lines : List Line} {opened close : Nat} {name : String}
    {choices : List String} (h : readOption lines opened name = .ok (choices, close))
    : opened < close := by
  unfold readOption at h
  split at h
  · simp at h
  · simp at h
  · next found =>
      obtain ⟨-, rfl⟩ := Prod.mk.inj (Except.ok.inj h)
      exact le_of_choicesFrom found

-----------------------------------------------------------------------------------------
-- Scopes and branches
-----------------------------------------------------------------------------------------

/-- The line at an index before `stop`. -/
def before? (lines : List Line) (stop index : Nat) : Option Line :=
  if index < stop then lines[index]? else none

/-- A line that is there has an index inside the list. -/
theorem lt_length_of_before? {lines : List Line} {stop index : Nat} {line : Line}
    (h : before? lines stop index = some line)
    : index < lines.length := by
  unfold before? at h
  split at h
  · exact (List.getElem?_eq_some_iff.mp h).1
  · simp at h

/-- Reads the bodies of branches of the block that the line at `opened` opens, each by `read`. A
body that is closed before its last line is reported.
-/
def readBranches (lines : List Line) (opened : Nat)
    : (branches : List Branch)
      → (read : ∀ branch ∈ branches, List String → Logged ScriptError Reading)
      → (known : List String)
      → Logged ScriptError (Branches × List String)
  | [], _, known => pure (.nil, known)
  | branch :: rest, read, known => do
      let body ← read branch List.mem_cons_self known
      if body.cursor < branch.stop then
        Logged.report
          [.branchStopped branch.guard (numberAt lines opened) (numberAt lines (body.cursor - 1))]
      let (others, known) ← readBranches lines opened rest
        (fun other member => read other (List.mem_cons_of_mem _ member)) body.known
      return (.cons branch.guard body.scope others, known)

/-- Reads a scope from the line at `cursor` up to what closes it or to `stop`. Branch labels are
those of the declared options, and other lines are taken by the options known so far; closing tags
and labels met on the way mean nothing.
-/
def readScope (lines : List Line) (declared : List String) (stop cursor : Nat)
    (known : List String)
    : Logged ScriptError Reading :=
  match _here : before? lines stop cursor with
  | none => pure ⟨.runsOut (numberAt lines (stop - 1)), cursor, known⟩
  | some line =>
      match line.statement known with
      | .error error => throw error
      | .ok .terminator => readScope lines declared stop (cursor + 1) known
      | .ok (.label _) => readScope lines declared stop (cursor + 1) known
      | .ok .ending => pure ⟨.ended line.number, cursor + 1, known⟩
      | .ok .dead => pure ⟨.dead line.number, cursor + 1, known⟩
      | .ok (.scene content) =>
          Reading.afterBeat (.scene content) line.number
            <$> readScope lines declared stop (cursor + 1) known
      | .ok (.say speaker content) =>
          Reading.afterBeat (.say speaker content) line.number
            <$> readScope lines declared stop (cursor + 1) known
      | .ok (.think speaker content) =>
          Reading.afterBeat (.think speaker content) line.number
            <$> readScope lines declared stop (cursor + 1) known
      | .ok (.option name) =>
          match _found : readOption lines cursor name with
          | .error error => throw error
          | .ok (choices, close) =>
              Reading.afterBeat (.option name choices) line.number
                <$> readScope lines declared stop (close + 1) (name :: known)
      | .ok .choices =>
          match _found : scanBlock lines declared cursor (cursor + 1) with
          | .error error => throw error
          | .ok block => do
              Logged.report
                [.blockFound line.number (numberAt lines block.close) block.labels.length]
              let (branches, known) ← readBranches lines cursor block.branches
                (fun branch _member => readScope lines declared branch.stop branch.start) known
              Reading.afterBlock line.number branches
                <$> readScope lines declared stop block.reconverge known
termination_by lines.length - cursor
decreasing_by
  all_goals have inside := lt_length_of_before? _here
  all_goals try have after := lt_of_readOption _found
  all_goals try have bounds := (scanBlock_bounds _found).1
  all_goals try have later := lt_label_of_scanBlock _found _ _member
  all_goals try simp only [Block.reconverge, Branch.start]
  all_goals omega

/-- Reads the outline of a whole script. Lines after its end are passed over. -/
def readOutline (lines : List Line) (declared : List String) : Logged ScriptError Scope := do
  let reading ← readScope lines declared lines.length 0 []
  if reading.cursor < lines.length then
    Logged.report
      [.linesIgnored (lines.length - reading.cursor) (numberAt lines (reading.cursor - 1))]
  return reading.scope.settle false

end Line

end Dialogue
