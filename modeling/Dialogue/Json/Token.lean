import Dialogue.Json.Basic

/-! JSON text divided into tokens by an automaton that takes one character at a time. -/

namespace Dialogue.Json

/-- A token of JSON text. Strings, numbers and the three words are whole values already. -/
inductive Token where
  | leftBracket
  | rightBracket
  | leftBrace
  | rightBrace
  | colon
  | comma
  | value (json : Json)

def afterDigits : List Char → Option (List Char)
  | c :: rest => if c.isDigit then some (rest.dropWhile Char.isDigit) else none
  | [] => none

/-- What follows the integer part of a number, which has no needless leading zero. -/
def afterInteger : List Char → Option (List Char)
  | '0' :: rest => some rest
  | chars => afterDigits chars

def afterFraction : List Char → Option (List Char)
  | '.' :: rest => afterDigits rest
  | chars => some chars

/-- What follows the exponent of a number, if it has one. -/
def afterExponent : List Char → Option (List Char)
  | e :: '+' :: rest => if e = 'e' ∨ e = 'E' then afterDigits rest else some (e :: '+' :: rest)
  | e :: '-' :: rest => if e = 'e' ∨ e = 'E' then afterDigits rest else some (e :: '-' :: rest)
  | e :: rest => if e = 'e' ∨ e = 'E' then afterDigits rest else some (e :: rest)
  | [] => some []

/-- Whether a word is a number of the JSON grammar that has no sign. -/
def isUnsigned (chars : List Char) : Bool :=
  (((afterInteger chars).bind afterFraction).bind afterExponent) == some []

/-- The value that a word outside strings stands for. -/
def wordValue? (chars : List Char) : Option Json :=
  let word := String.ofList chars
  if word = "null" then some .null
  else if word = "true" then some (.bool true)
  else if word = "false" then some (.bool false)
  else if afterInteger chars = some [] then
    some (.natural (chars.foldl (fun value c => 10 * value + (c.toNat - '0'.toNat)) 0))
  else if isUnsigned chars then some (.number word)
  else
    match chars with
    | '-' :: rest => if isUnsigned rest then some (.number word) else none
    | _ => none

/-- Puts a code point before a text. The second half of a surrogate pair waits for the first,
and a half without its partner is refused.
-/
def pairStep : Option Nat × List Char → Nat → Option (Option Nat × List Char)
  | (none, chars), code =>
      if 0xDC00 ≤ code ∧ code < 0xE000 then some (some code, chars)
      else if 0xD800 ≤ code ∧ code < 0xDC00 then none
      else some (none, Char.ofNat code :: chars)
  | (some low, chars), code =>
      if 0xD800 ≤ code ∧ code < 0xDC00 then
        some (none, Char.ofNat (0x10000 + (code - 0xD800) * 0x400 + (low - 0xDC00)) :: chars)
      else none

/-- The value of a string with these code points, given last first. -/
def textValue (codes : List Nat) : Json :=
  match codes.foldlM pairStep (none, []) with
  | some (none, chars) => .text (String.ofList chars)
  | _ => .unpaired

/-- The character that a one-letter escape stands for. -/
def escaped? (c : Char) : Option Nat :=
  if c = '"' ∨ c = '\\' ∨ c = '/' then some c.toNat
  else if c = 'b' then some 8
  else if c = 'f' then some 12
  else if c = 'n' then some 10
  else if c = 'r' then some 13
  else if c = 't' then some 9
  else none

/-- The value of a hexadecimal digit. -/
def hexDigit? (c : Char) : Option Nat :=
  if c.isDigit then some (c.toNat - '0'.toNat)
  else if 'a' ≤ c ∧ c ≤ 'f' then some (c.toNat - 'a'.toNat + 10)
  else if 'A' ≤ c ∧ c ≤ 'F' then some (c.toNat - 'A'.toNat + 10)
  else none

/-- Where in the text the automaton is. What has been read of a word or string is kept with its
last character first.
-/
inductive Mode where
  | between
  | word (letters : List Char)
  | text (codes : List Nat)
  | escape (codes : List Nat)
  | hex (codes : List Nat) (missing : Nat) (value : Nat)

/-- The automaton's mode and the tokens that it has completed, last first. -/
structure Scan where
  mode : Mode
  done : List Token

/-- The four blanks that may stand between tokens. -/
def isSpace (c : Char) : Bool :=
  c = ' ' || c = '\n' || c = '\t' || c = '\r'

/-- The token that a single character makes. -/
def mark? (c : Char) : Option Token :=
  if c = '[' then some .leftBracket
  else if c = ']' then some .rightBracket
  else if c = '\x7b' then some .leftBrace
  else if c = '\x7d' then some .rightBrace
  else if c = ':' then some .colon
  else if c = ',' then some .comma
  else none

/-- A character outside words and strings. -/
def startToken (done : List Token) (c : Char) : Scan :=
  if isSpace c then ⟨.between, done⟩
  else if c = '"' then ⟨.text [], done⟩
  else
    match mark? c with
    | some token => ⟨.between, token :: done⟩
    | none => ⟨.word [c], done⟩

/-- One step of the automaton; none when the text cannot be JSON any more. -/
def advanceScan (scan : Scan) (c : Char) : Option Scan :=
  match scan.mode with
  | .between => some (startToken scan.done c)
  | .word letters =>
      if isSpace c || c = '"' || (mark? c).isSome then
        (wordValue? letters.reverse).map fun json => startToken (.value json :: scan.done) c
      else some ⟨.word (c :: letters), scan.done⟩
  | .text codes =>
      if c = '"' then some ⟨.between, .value (textValue codes) :: scan.done⟩
      else if c = '\\' then some ⟨.escape codes, scan.done⟩
      else if c.toNat < 32 then none
      else some ⟨.text (c.toNat :: codes), scan.done⟩
  | .escape codes =>
      if c = 'u' then some ⟨.hex codes 3 0, scan.done⟩
      else (escaped? c).map fun code => ⟨.text (code :: codes), scan.done⟩
  | .hex codes missing value =>
      (hexDigit? c).map fun digit =>
        match missing with
        | 0 => ⟨.text ((16 * value + digit) :: codes), scan.done⟩
        | missing + 1 => ⟨.hex codes missing (16 * value + digit), scan.done⟩

/-- The tokens of a text; none when it does not divide into tokens. -/
def tokens? (text : String) : Option (List Token) :=
  match text.toList.foldlM advanceScan ⟨.between, []⟩ with
  | some ⟨.between, done⟩ => some done.reverse
  | some ⟨.word letters, done⟩ =>
      (wordValue? letters.reverse).map fun json => (.value json :: done).reverse
  | _ => none

end Dialogue.Json
