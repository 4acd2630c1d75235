import Mathlib.Data.List.Forall2
import Dialogue.Proofs.Script.Faults
import Dialogue.Proofs.Script.Renumbering

/-! Scripts told text by text: what a text spells does not depend on where it stands but for the
number of the line, so texts can be put behind others or in the place of one another.
-/

namespace Dialogue

namespace Script

/-- The text is decoded to this line, under the number of the line. -/
def Spells (text : String) (line : Line) : Prop :=
  Line.decode line.number (trimmed text) = .ok line

instance (text : String) (line : Line) : Decidable (Spells text line) :=
  inferInstanceAs (Decidable (Line.decode line.number (trimmed text) = .ok line))

/-- The text is the header of a block for the option of this name. -/
def Opens (text name : String) : Prop :=
  ∃ line, Spells text line ∧ line.Heads name

section Spells

variable {text : String} {line : Line}

/-- A text spells the same line under every number. -/
theorem Spells.renumber (spells : Spells text line) (number : Nat)
    : Spells text { line with number } := by
  have again := Line.decode_renumber (f := fun _ => number) line.number (trimmed text)
  rw [spells] at again
  exact again

/-- The lines that a text spells differ in their numbers alone. -/
theorem Spells.unique {other : Line} (spells : Spells text line) (again : Spells text other)
    : other = { line with number := other.number } :=
  Except.ok.inj (Eq.trans (Eq.symm again) (spells.renumber other.number))

theorem Spells.opens_iff (spells : Spells text line) {name : String}
    : Opens text name ↔ line.Heads name := by
  refine ⟨fun ⟨other, again, heads⟩ => ?_, fun heads => ⟨line, spells, heads⟩⟩
  rw [spells.unique again] at heads
  exact heads

end Spells

-----------------------------------------------------------------------------------------
-- Lists of texts
-----------------------------------------------------------------------------------------

variable {texts : List String} {lines : List Line}

/-- Texts are decoded one by one, by induction on their list. -/
theorem decodeAll_eq_ok_iff {first : Nat}
    : Line.decodeAll (((texts.map trimmed).zipIdx first).map Prod.swap) = .ok lines
      ↔ List.Forall₂ Spells texts lines
        ∧ lines.map Line.number = List.range' first texts.length := by
  induction texts generalizing first lines with
  | nil =>
      constructor
      · intro decoded
        obtain rfl := Except.ok.inj decoded
        exact ⟨.nil, rfl⟩
      · intro ⟨spelled, _⟩
        obtain rfl := List.forall₂_nil_left_iff.mp spelled
        rfl
  | cons text rest ih =>
      rw [List.map_cons, List.zipIdx_cons, List.map_cons, Line.decodeAll_cons, List.length_cons,
        List.range'_succ]
      constructor
      · rintro ⟨line, others, decoded, decodedRest, rfl⟩
        obtain rfl := Line.number_of_decode decoded
        obtain ⟨spelled, numbers⟩ := ih.mp decodedRest
        exact ⟨.cons decoded spelled, congrArg _ numbers⟩
      · rintro ⟨spelled, numbers⟩
        obtain ⟨line, others, spells, spelledRest, rfl⟩ := List.forall₂_cons_left_iff.mp spelled
        obtain ⟨rfl, numbersRest⟩ := List.cons.inj numbers
        exact ⟨line, others, spells, ih.mpr ⟨spelledRest, numbersRest⟩, rfl⟩

theorem decodesTo_iff
    : DecodesTo texts lines
      ↔ List.Forall₂ Spells texts lines
        ∧ lines.map Line.number = List.range' 1 texts.length := by
  rw [← decodeAll_eq_ok_iff]
  exact ⟨DecodesTo.decoded, decodesTo_of_decodeAll⟩

/-- Texts that each spell a line spell lines together, under all numbers. -/
theorem exists_spelled (each : ∀ text ∈ texts, ∃ line, Spells text line) (first : Nat)
    : ∃ lines,
        List.Forall₂ Spells texts lines
        ∧ lines.map Line.number = List.range' first texts.length := by
  induction texts generalizing first with
  | nil => exact ⟨[], .nil, rfl⟩
  | cons text rest ih =>
      obtain ⟨⟨line, spells⟩, eachRest⟩ := List.forall_mem_cons.mp each
      obtain ⟨others, spelled, numbers⟩ := ih eachRest (first + 1)
      exact ⟨_, .cons (spells.renumber first) spelled, congrArg _ numbers⟩

/-- Every line is spelled by a text, by induction on the texts. -/
theorem exists_text_of_mem (spelled : List.Forall₂ Spells texts lines)
    : ∀ line ∈ lines, ∃ text ∈ texts, Spells text line := by
  induction spelled with
  | nil => simp
  | cons spells _ ih =>
      refine List.forall_mem_cons.mpr ⟨⟨_, List.mem_cons_self, spells⟩, fun line member => ?_⟩
      obtain ⟨text, inside, spells⟩ := ih line member
      exact ⟨text, List.mem_cons_of_mem _ inside, spells⟩

/-- The options that lines declare are those that their texts open, by induction on the texts. -/
theorem declares_iff (spelled : List.Forall₂ Spells texts lines) {name : String}
    : Line.Declares lines name ↔ ∃ text ∈ texts, Opens text name := by
  unfold Line.Declares
  induction spelled with
  | nil => simp
  | cons spells _ ih =>
      rw [List.exists_mem_cons_iff, List.exists_mem_cons_iff, spells.opens_iff, ih]

end Script

end Dialogue
