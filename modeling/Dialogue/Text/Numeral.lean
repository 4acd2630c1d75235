/-! Natural numbers written in decimal, read up to a bound. -/

namespace Dialogue.Text

/-- Why a text is not a number within the bound. -/
inductive NumeralError where
  | missing
  | notDigit
  | tooLarge
  deriving Repr, DecidableEq

def NumeralError.message : NumeralError → String
  | .missing => "cannot parse integer from empty string"
  | .notDigit => "invalid digit found in string"
  | .tooLarge => "number too large to fit in target type"

/-- The value of an ASCII digit. -/
def digitValue (c : Char) : Nat :=
  c.toNat - '0'.toNat

/-- Reads further digits after those worth `value`. The first character that is no digit, or
that takes the number over the bound, decides the error.
-/
def readDigits (bound value : Nat) : List Char → Except NumeralError Nat
  | [] => .ok value
  | c :: rest =>
      if c.isDigit then
        if 10 * value + digitValue c ≤ bound then
          readDigits bound (10 * value + digitValue c) rest
        else
          .error .tooLarge
      else
        .error .notDigit

/-- Reads one or more digits, with a plus sign in front of them or without. -/
def readNumeral (bound : Nat) : List Char → Except NumeralError Nat
  | [] => .error .missing
  | '+' :: c :: rest => readDigits bound 0 (c :: rest)
  | text => readDigits bound 0 text

end Dialogue.Text
