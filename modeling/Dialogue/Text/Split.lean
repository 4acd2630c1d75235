/-! Texts divided at a separating character. -/

namespace Dialogue.Text

def consHead (c : Char) : List (List Char) → List (List Char)
  | [] => [[c]]
  | piece :: pieces => (c :: piece) :: pieces

/-- The pieces of a text between the separators, blank ones included; there is always one. -/
def split (separator : Char) (text : List Char) : List (List Char) :=
  text.foldr
    (fun c pieces => if c = separator then [] :: pieces else consHead c pieces)
    [[]]

/-- The parts of a text before and after its first separator, if it has one. -/
def cut (separator : Char) (text : List Char) : Option (List Char × List Char) :=
  match text.dropWhile (· ≠ separator) with
  | [] => none
  | _ :: after => some (text.takeWhile (· ≠ separator), after)

/-- The part of a text after its last separator; the whole text when it has none. -/
def afterLast (separator : Char) (text : List Char) : List Char :=
  (text.reverse.takeWhile (· ≠ separator)).reverse

/-- What follows the first separator is shorter than the text. -/
theorem length_of_cut {separator : Char} {text before after : List Char}
    (h : cut separator text = some (before, after))
    : after.length < text.length := by
  unfold cut at h
  split at h
  · simp at h
  · next c rest dropped =>
      obtain ⟨-, rfl⟩ := Prod.mk.inj (Option.some.inj h)
      have bound := (List.dropWhile_suffix (l := text) (· ≠ separator)).length_le
      simp only [dropped, List.length_cons] at bound
      omega

end Dialogue.Text
