/-! Blank characters, and texts with the blanks around them removed. -/

namespace Dialogue.Text

/-- Whether a character has the Unicode property `White_Space`, which 25 characters have. -/
def isBlank (c : Char) : Bool :=
  let code := c.toNat
  (0x09 ≤ code && code ≤ 0x0D)
  || code == 0x20
  || code == 0x85
  || code == 0xA0
  || code == 0x1680
  || (0x2000 ≤ code && code ≤ 0x200A)
  || code == 0x2028
  || code == 0x2029
  || code == 0x202F
  || code == 0x205F
  || code == 0x3000

def trimEnd (text : List Char) : List Char :=
  (text.reverse.dropWhile isBlank).reverse

/-- A text without the blanks at its start and at its end. -/
def trim (text : List Char) : List Char :=
  trimEnd (text.dropWhile isBlank)

/-- A text is trimmed when it neither starts nor ends with a blank. -/
def Trimmed (text : List Char) : Prop :=
  trim text = text

instance (text : List Char) : Decidable (Trimmed text) :=
  inferInstanceAs (Decidable (trim text = text))

end Dialogue.Text
