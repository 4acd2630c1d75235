import Mathlib.Data.List.Basic
import Dialogue.Proofs.Script.Outlines

/-! The lines of a script carry their numbers in order, whether the script is given as lines or as
one text.
-/

namespace Dialogue

namespace Line

/-- The numbers of the lines count upwards, from 1 or from a later number on. -/
def Numbered (lines : List Line) : Prop :=
  (0 :: lines.map number).Pairwise (· < ·)

/-- Decoding keeps the number, by cases on the faults. -/
theorem number_of_decode {number : Nat} {text : String} {line : Line}
    (h : decode number text = .ok line)
    : line.number = number := by
  simp only [decode] at h
  split at h
  · exact nomatch h
  · split at h
    · exact nomatch h
    · split at h
      · exact nomatch h
      · obtain rfl := Except.ok.inj h
        rfl

/-- Decoding texts one after the other decodes each of them. -/
theorem decodeAll_cons {entry : Nat × String} {rest : List (Nat × String)} {lines : List Line}
    : decodeAll (entry :: rest) = .ok lines
      ↔ ∃ line others,
          decode entry.1 entry.2 = .ok line
          ∧ decodeAll rest = .ok others
          ∧ line :: others = lines := by
  unfold decodeAll
  rw [List.mapM_cons, bind_eq_ok_iff]
  constructor
  · rintro ⟨line, decoded, h⟩
    obtain ⟨others, decodedRest, pair⟩ := bind_eq_ok_iff.mp h
    exact ⟨line, others, decoded, decodedRest, Except.ok.inj pair⟩
  · rintro ⟨line, others, decoded, decodedRest, rfl⟩
    exact ⟨line, decoded, bind_eq_ok_iff.mpr ⟨others, decodedRest, rfl⟩⟩

/-- Decoding keeps all numbers, by induction on the texts. -/
theorem numbers_of_decodeAll {texts : List (Nat × String)} {lines : List Line}
    (h : decodeAll texts = .ok lines)
    : lines.map number = texts.map Prod.fst := by
  induction texts generalizing lines with
  | nil =>
      obtain rfl := Except.ok.inj h
      rfl
  | cons entry rest ih =>
      obtain ⟨line, others, decoded, decodedRest, rfl⟩ := decodeAll_cons.mp h
      rw [List.map_cons, List.map_cons, number_of_decode decoded, ih decodedRest]

theorem numbered_of_decodeAll {texts : List (Nat × String)} {lines : List Line}
    (counted : (0 :: texts.map Prod.fst).Pairwise (· < ·)) (h : decodeAll texts = .ok lines)
    : Numbered lines := by
  rw [Numbered, numbers_of_decodeAll h]
  exact counted

end Line

namespace Script

theorem pairwise_zipIdx {α : Type} (items : List α)
    : (0 :: (items.zipIdx 1).map Prod.snd).Pairwise (· < ·) := by
  rw [List.zipIdx_map_snd, List.pairwise_cons]
  refine ⟨fun number member => ?_, List.pairwise_lt_range'⟩
  exact Nat.lt_of_lt_of_le Nat.zero_lt_one (List.mem_range'_1.mp member).1

theorem numbers_lines (texts : List String)
    : ((((texts.map trimmed).zipIdx 1).map Prod.swap).map Prod.fst)
      = List.range' 1 texts.length := by
  rw [List.map_map, ← List.length_map trimmed]
  exact List.zipIdx_map_snd 1 (texts.map trimmed)

/-- The given lines are numbered from 1 on. -/
theorem numbered_lines {texts : List String} {lines : List Line}
    (h : Line.decodeAll (((texts.map trimmed).zipIdx 1).map Prod.swap) = .ok lines)
    : Line.Numbered lines := by
  refine Line.numbered_of_decodeAll ?_ h
  rw [List.map_map]
  exact pairwise_zipIdx (texts.map trimmed)

/-- The lines of a text that are not blank keep the order that they have in it. -/
theorem pairwise_numberedLines (source : String)
    : (0 :: (numberedLines source).map Prod.fst).Pairwise (· < ·) := by
  unfold numberedLines
  rw [List.map_map]
  have all := pairwise_zipIdx ((Text.split '\n' source.toList).map Text.trim)
  exact all.sublist (.cons_cons 0 (List.filter_sublist.map Prod.snd))

theorem numbered_text {source : String} {lines : List Line}
    (h : Line.decodeAll (numberedLines source) = .ok lines)
    : Line.Numbered lines :=
  Line.numbered_of_decodeAll (pairwise_numberedLines source) h

/-- The graph is compiled from a script, which is given as lines or as one text. -/
inductive Compiled (graph : Graph) : Prop where
  | lines {texts} (h : (compile texts).outcome = .ok graph) : Compiled graph
  | text {source} (h : (compileText source).outcome = .ok graph) : Compiled graph

theorem compile_eq_ok_iff {texts : List String} {graph : Graph}
    : (compile texts).outcome = .ok graph
      ↔ ∃ lines,
          Line.decodeAll (((texts.map trimmed).zipIdx 1).map Prod.swap) = .ok lines
          ∧ (Line.compile lines).outcome = .ok graph :=
  Logged.outcome_bind_eq_ok_iff

theorem compileText_eq_ok_iff {source : String} {graph : Graph}
    : (compileText source).outcome = .ok graph
      ↔ ∃ lines,
          Line.decodeAll (numberedLines source) = .ok lines
          ∧ (Line.compile lines).outcome = .ok graph :=
  Logged.outcome_bind_eq_ok_iff

/-- Either way the graph is compiled from numbered lines. -/
theorem Compiled.exists_lines {graph : Graph} (compiled : Compiled graph)
    : ∃ lines scope,
        Line.Numbered lines ∧ Line.Outlines lines scope ∧ scope.layout.splice = graph := by
  cases compiled with
  | lines h =>
      obtain ⟨lines, decoded, compiled⟩ := compile_eq_ok_iff.mp h
      obtain ⟨scope, outlines, spliced⟩ := Line.compile_eq_ok_iff.mp compiled
      exact ⟨lines, scope, numbered_lines decoded, outlines, spliced⟩
  | text h =>
      obtain ⟨lines, decoded, compiled⟩ := compileText_eq_ok_iff.mp h
      obtain ⟨scope, outlines, spliced⟩ := Line.compile_eq_ok_iff.mp compiled
      exact ⟨lines, scope, numbered_text decoded, outlines, spliced⟩

end Script

end Dialogue
