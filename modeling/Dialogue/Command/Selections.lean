import Dialogue.Graph.Basic
import Dialogue.Text.Blank
import Dialogue.Text.Numeral
import Dialogue.Text.Split

/-! Lists of answers as they are given on the command line. -/

namespace Dialogue.Command

/-- The item of a list that is no number, and why. -/
structure SelectionError where
  item : String
  cause : Text.NumeralError
  deriving Repr, DecidableEq

def SelectionError.message (error : SelectionError) : String :=
  "Invalid selection '" ++ error.item ++ "': " ++ error.cause.message

/-- The items between the commas of a list, trimmed and without blank ones. -/
def selectionItems (value : String) : List (List Char) :=
  ((Text.split ',' value.toList).map Text.trim).filter fun item => !item.isEmpty

def readSelection (item : List Char) : Except SelectionError Nat :=
  (Text.readNumeral maxIndex item).mapError fun cause => ⟨String.ofList item, cause⟩

/-- Reads a list of indices. The first bad item decides the error. -/
def readSelections (value : String) : Except SelectionError (List Nat) :=
  (selectionItems value).mapM readSelection

end Dialogue.Command
