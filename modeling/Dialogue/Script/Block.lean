import Dialogue.Script.Statement

/-! The extent of a choices block: where it closes, and the branch labels directly inside it. -/

namespace Dialogue

/-- A branch label: the index of its line, and the guard that it states. -/
structure Label where
  index : Nat
  guard : Guard
  deriving Repr, DecidableEq

/-- A branch: its guard, the index of its label, and the index at which its body stops. -/
structure Branch where
  guard : Guard
  label : Nat
  stop : Nat
  deriving Repr, DecidableEq

/-- The index at which a branch's body starts: the line after its label. -/
def Branch.start (branch : Branch) : Nat :=
  branch.label + 1

/-- A choices block: its labels, in order, and the index of the line that closes it. -/
structure Block where
  labels : List Label
  close : Nat
  deriving Repr, DecidableEq

namespace Block

/-- The index of the first line after the block, where its branches meet again. -/
def reconverge (block : Block) : Nat :=
  block.close + 1

/-- The branches of these labels. Each body stops at the next label, and the last at `close`. -/
def branchesUpTo (close : Nat) : List Label → List Branch
  | [] => []
  | label :: rest =>
      ⟨label.guard, label.index, (rest.head?.map Label.index).getD close⟩
        :: branchesUpTo close rest

def branches (block : Block) : List Branch :=
  branchesUpTo block.close block.labels

/-- Every branch comes from a label, by induction on the labels. -/
theorem exists_label_of_mem_branchesUpTo {close : Nat} {labels : List Label} {branch : Branch}
    (member : branch ∈ branchesUpTo close labels)
    : ∃ label ∈ labels, branch.label = label.index ∧ branch.guard = label.guard := by
  induction labels with
  | nil => simp [branchesUpTo] at member
  | cons label rest ih =>
      rcases List.mem_cons.mp member with rfl | member
      · exact ⟨label, by simp, rfl, rfl⟩
      · obtain ⟨found, inside, same⟩ := ih member
        exact ⟨found, List.mem_cons_of_mem _ inside, same⟩

end Block

namespace Line

/-- Reads on inside a block of which `nested` inner blocks are open, from the line numbered
`index` on. Every closing tag closes the innermost block; labels count only where no inner block is
open. The result is none when the lines run out first.
-/
def scanFrom (names : List String) (nested index : Nat) : List Line → Option Block
  | [] => none
  | line :: rest =>
      if line.isOpening then scanFrom names (nested + 1) (index + 1) rest
      else if line.isTerminator then
        match nested with
        | 0 => some ⟨[], index⟩
        | nested + 1 => scanFrom names nested (index + 1) rest
      else
        match nested, line.branch? names with
        | 0, some guard =>
            (scanFrom names 0 (index + 1) rest).map fun block =>
              { block with labels := ⟨index, guard⟩ :: block.labels }
        | nested, _ => scanFrom names nested (index + 1) rest

/-- Finds the extent of the choices block whose first label is expected at `start`. Only the first
label has to have a number for its threshold. A block that is never closed is named by the number
of the line at `opened`.
-/
def scanBlock (lines : List Line) (names : List String) (opened start : Nat)
    : Except ScriptError Block :=
  let unterminated := ScriptError.unterminatedChoices (numberAt lines opened)
  match lines[start]? with
  | none => .error unterminated
  | some first =>
      match first.guard names with
      | .error error => .error error
      | .ok none => .error (.expectedBranch first.number (String.intercalate "><" first.tags))
      | .ok (some guard) =>
          match scanFrom names 0 (start + 1) (lines.drop (start + 1)) with
          | none => .error unterminated
          | some block => .ok { block with labels := ⟨start, guard⟩ :: block.labels }

/-- What is found from a line on lies at or after that line, by induction on the lines. -/
theorem scanFrom_bounds {names : List String} {nested index : Nat} {lines : List Line}
    {block : Block} (h : scanFrom names nested index lines = some block)
    : index ≤ block.close ∧ ∀ label ∈ block.labels, index ≤ label.index := by
  induction lines generalizing nested index block with
  | nil => simp [scanFrom] at h
  | cons line rest ih =>
      have later {nested : Nat} {found : Block}
          (h : scanFrom names nested (index + 1) rest = some found)
          : index ≤ found.close ∧ ∀ label ∈ found.labels, index ≤ label.index := by
        obtain ⟨close, labels⟩ := ih h
        exact ⟨by omega, fun label member => by have := labels label member; omega⟩
      unfold scanFrom at h
      split at h
      · exact later h
      · split at h
        · split at h
          · obtain rfl := Option.some.inj h
            simp
          · exact later h
        · split at h
          · obtain ⟨found, inner, rfl⟩ := Option.map_eq_some_iff.mp h
            obtain ⟨close, labels⟩ := later inner
            refine ⟨close, fun label member => ?_⟩
            rcases List.mem_cons.mp member with rfl | member
            · exact Nat.le_refl _
            · exact labels label member
          · exact later h

/-- A block's labels stand at or after its expected start and its closing line after it. -/
theorem scanBlock_bounds {lines : List Line} {names : List String} {opened start : Nat}
    {block : Block} (h : scanBlock lines names opened start = .ok block)
    : start < block.close ∧ ∀ label ∈ block.labels, start ≤ label.index := by
  unfold scanBlock at h
  split at h
  · simp at h
  · split at h
    · simp at h
    · simp at h
    · split at h
      · simp at h
      · next found =>
          obtain ⟨close, labels⟩ := scanFrom_bounds found
          obtain rfl := Except.ok.inj h
          refine ⟨Nat.lt_of_succ_le close, fun label member => ?_⟩
          rcases List.mem_cons.mp member with rfl | member
          · exact Nat.le_refl _
          · have := labels label member
            omega

/-- A block's branches have their labels after the line before its expected start. -/
theorem lt_label_of_scanBlock {lines : List Line} {names : List String} {opened start : Nat}
    {block : Block} (h : scanBlock lines names opened (start + 1) = .ok block)
    : ∀ branch ∈ block.branches, start < branch.label := by
  intro branch member
  obtain ⟨label, inside, same, -⟩ := Block.exists_label_of_mem_branchesUpTo member
  have := (scanBlock_bounds h).2 label inside
  omega

end Line

end Dialogue
