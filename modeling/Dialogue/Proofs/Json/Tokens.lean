import Mathlib.Data.List.DropRight
import Dialogue.Json.Token
import Dialogue.Json.Writer
import Dialogue.Proofs.Text.Numerals

/-! Which texts stand for which tokens: marks, words up to what ends them, and strings, whose
escapes are undone one by one.
-/

namespace Dialogue.Json

-----------------------------------------------------------------------------------------
-- Scanning to the end
-----------------------------------------------------------------------------------------

/-- The tokens of what has been scanned and of the characters that follow. -/
def scanRest (scan : Scan) (chars : List Char) : Option (List Token) :=
  match chars.foldlM advanceScan scan with
  | some ⟨.between, done⟩ => some done.reverse
  | some ⟨.word letters, done⟩ =>
      (wordValue? letters.reverse).map fun json => (.value json :: done).reverse
  | _ => none

theorem tokens?_eq (text : String) : tokens? text = scanRest ⟨.between, []⟩ text.toList :=
  rfl

theorem scanRest_cons {scan next : Scan} {c : Char} (advances : advanceScan scan c = some next)
    (rest : List Char)
    : scanRest scan (c :: rest) = scanRest next rest := by
  rw [scanRest, List.foldlM_cons, advances]
  rfl

/-- A character that ends a word. -/
def EndsWord (c : Char) : Prop :=
  (isSpace c || c = '"' || (mark? c).isSome) = true

instance (c : Char) : Decidable (EndsWord c) :=
  inferInstanceAs (Decidable (_ = true))

/-- What follows a word is nothing or starts with a character that ends it. -/
def Delimited (rest : List Char) : Prop :=
  ∀ c, rest.head? = some c → EndsWord c

/-- These characters stand for these tokens, wherever a token can start and whatever follows that
ends a word.
-/
def Scans (chars : List Char) (tokens : List Token) : Prop :=
  ∀ done rest,
    Delimited rest
    → scanRest ⟨.between, done⟩ (chars ++ rest)
      = scanRest ⟨.between, tokens.reverse ++ done⟩ rest

theorem delimited_nil : Delimited [] :=
  fun _ begins => nomatch begins

theorem delimited_cons {c : Char} (ends : EndsWord c) (rest : List Char)
    : Delimited (c :: rest) := by
  intro other begins
  obtain rfl := Option.some.inj begins
  exact ends

/-- A text that stands for tokens is divided into them. -/
theorem Scans.tokens? {text : String} {tokens : List Token} (scans : Scans text.toList tokens)
    : tokens? text = some tokens := by
  have whole := scans [] [] delimited_nil
  rw [List.append_nil, List.append_nil] at whole
  rw [tokens?_eq, whole]
  exact congrArg some tokens.reverse_reverse

-----------------------------------------------------------------------------------------
-- Marks, spaces and words
-----------------------------------------------------------------------------------------

theorem endsWord_of_mark? {c : Char} {token : Token} (marks : mark? c = some token)
    : EndsWord c := by
  simp [EndsWord, marks]

theorem endsWord_of_isSpace {c : Char} (space : isSpace c = true) : EndsWord c := by
  simp [EndsWord, space]

theorem scanRest_between (done : List Token) (c : Char) (rest : List Char)
    : scanRest ⟨.between, done⟩ (c :: rest) = scanRest (startToken done c) rest :=
  scanRest_cons rfl rest

/-- A mark is a token of its own, since no mark is a space or a quote. -/
theorem scanRest_mark {c : Char} {token : Token} (marks : mark? c = some token)
    (done : List Token) (rest : List Char)
    : scanRest ⟨.between, done⟩ (c :: rest) = scanRest ⟨.between, token :: done⟩ rest := by
  have solid : isSpace c = false := by
    refine Bool.eq_false_iff.mpr fun space => ?_
    simp only [isSpace, Bool.or_eq_true, decide_eq_true_eq] at space
    rcases space with ((rfl | rfl) | rfl) | rfl <;> cases marks
  have unquoted : c ≠ '"' := by
    rintro rfl
    cases marks
  have starts : startToken done c = ⟨.between, token :: done⟩ := by
    simp [startToken, solid, unquoted, marks]
  rw [scanRest_between, starts]

/-- Spaces stand for nothing, by induction on them. -/
theorem scanRest_spaces {spaces : List Char} (blank : ∀ c ∈ spaces, isSpace c = true)
    (done : List Token) (rest : List Char)
    : scanRest ⟨.between, done⟩ (spaces ++ rest) = scanRest ⟨.between, done⟩ rest := by
  induction spaces with
  | nil => rfl
  | cons c others ih =>
      obtain ⟨space, later⟩ := List.forall_mem_cons.mp blank
      have starts : startToken done c = ⟨.between, done⟩ := by simp [startToken, space]
      rw [List.cons_append, scanRest_between, starts, ih later]

theorem scans_nil : Scans [] [] :=
  fun _ _ _ => rfl

theorem Scans.mark_cons {c : Char} {token : Token} {chars : List Char} {tokens : List Token}
    (scans : Scans chars tokens) (marks : mark? c = some token)
    : Scans (c :: chars) (token :: tokens) := by
  intro done rest delimited
  rw [List.cons_append, scanRest_mark marks, scans _ rest delimited, List.reverse_cons,
    List.append_assoc]
  rfl

theorem Scans.spaces_append {spaces chars : List Char} {tokens : List Token}
    (scans : Scans chars tokens) (blank : ∀ c ∈ spaces, isSpace c = true)
    : Scans (spaces ++ chars) tokens := by
  intro done rest delimited
  rw [List.append_assoc, scanRest_spaces blank, scans done rest delimited]

/-- Two texts stand one after the other for their tokens if a mark is between them, with spaces in
front of it or without: either ends a word.
-/
theorem Scans.append {left spaces right : List Char} {c : Char} {tokens others : List Token}
    {token : Token} (scans : Scans left tokens) (later : Scans right others)
    (blank : ∀ c ∈ spaces, isSpace c = true) (marks : mark? c = some token)
    : Scans (left ++ (spaces ++ c :: right)) (tokens ++ token :: others) := by
  intro done rest delimited
  have gap : Scans (spaces ++ c :: right) (token :: others) :=
    (later.mark_cons marks).spaces_append blank
  have ends : Delimited (spaces ++ c :: right ++ rest) := by
    cases spaces with
    | nil => exact delimited_cons (endsWord_of_mark? marks) _
    | cons first _ => exact delimited_cons (endsWord_of_isSpace (blank first List.mem_cons_self)) _
  rw [List.append_assoc, scans done _ ends, gap _ rest delimited, List.reverse_append,
    List.append_assoc]

theorem Scans.append_mark {left right : List Char} {c : Char} {tokens others : List Token}
    {token : Token} (scans : Scans left tokens) (later : Scans right others)
    (marks : mark? c = some token)
    : Scans (left ++ c :: right) (tokens ++ token :: others) := by
  have blank : ∀ c ∈ ([] : List Char), isSpace c = true := List.forall_mem_nil _
  exact scans.append later blank marks

/-- Letters are added to a word as long as none of them ends it, by induction on them. -/
theorem scanRest_word {letters : List Char} (solid : ∀ c ∈ letters, ¬EndsWord c)
    (before : List Char) (done : List Token) (rest : List Char)
    : scanRest ⟨.word before, done⟩ (letters ++ rest)
        = scanRest ⟨.word (letters.reverse ++ before), done⟩ rest := by
  induction letters generalizing before with
  | nil => rfl
  | cons c others ih =>
      obtain ⟨inner, later⟩ := List.forall_mem_cons.mp solid
      have advances : advanceScan ⟨.word before, done⟩ c = some ⟨.word (c :: before), done⟩ :=
        if_neg inner
      rw [List.cons_append, scanRest_cons advances, ih later, List.reverse_cons, List.append_assoc,
        List.singleton_append]

/-- At the end of a word its value becomes a token. -/
theorem scanRest_word_end {letters : List Char} {value : Json}
    (means : wordValue? letters.reverse = some value) (done : List Token) {rest : List Char}
    (delimited : Delimited rest)
    : scanRest ⟨.word letters, done⟩ rest = scanRest ⟨.between, .value value :: done⟩ rest := by
  cases rest with
  | nil => simp [scanRest, means]
  | cons c others =>
      have ends := delimited c rfl
      have advances
          : advanceScan ⟨.word letters, done⟩ c = some (startToken (.value value :: done) c) := by
        unfold EndsWord at ends
        simp [advanceScan, ends, means]
      rw [scanRest_cons advances, scanRest_between]

/-- A word stands for its value: it is not empty, so its first letter starts it. -/
theorem scans_word {letters : List Char} {value : Json} (solid : ∀ c ∈ letters, ¬EndsWord c)
    (means : wordValue? letters = some value)
    : Scans letters [.value value] := by
  intro done rest delimited
  cases letters with
  | nil => cases means
  | cons c others =>
      obtain ⟨inner, later⟩ := List.forall_mem_cons.mp solid
      have starts : startToken done c = ⟨.word [c], done⟩ := by
        simp only [EndsWord, Bool.or_eq_true, decide_eq_true_eq, not_or, Bool.not_eq_true,
          Option.isSome_eq_false_iff, Option.isNone_iff_eq_none] at inner
        simp [startToken, inner]
      rw [List.cons_append, scanRest_between, starts, scanRest_word later,
        scanRest_word_end (by simpa using means) done delimited]
      rfl

/-- A number as its decimal digits, which have no zero in front unless they are one. By strong
induction on the number.
-/
theorem head_toDigits {number : Nat} (zero : (Nat.toDigits 10 number).head? = some '0')
    : number = 0 := by
  induction number using Nat.strongRecOn with
  | _ number ih =>
      rw [Nat.toDigits_eq_if (by decide)] at zero
      split at zero
      · next small =>
          have shown : number.digitChar = '0' := Option.some.inj zero
          have value := Nat.ofDigitChars_ten_toDigits (n := number)
          rw [Nat.toDigits_of_lt_base small, shown] at value
          exact value.symm
      · next large =>
          rw [List.head?_append_of_ne_nil _ Nat.toDigits_ne_nil] at zero
          have := ih (number / 10) (by omega) zero
          omega

/-- Digits are one integer, whether the number is zero or starts with another digit. -/
theorem afterInteger_toString (number : Nat) : afterInteger (toString number).toList = some [] := by
  have digits : ∀ c ∈ (toString number).toList, c.isDigit = true :=
    fun c member => Text.isDigit_of_mem_toString member
  rw [Nat.toString_eq_repr, Nat.toList_repr] at digits ⊢
  obtain ⟨first, rest, shape⟩ :=
    List.exists_cons_of_ne_nil (Nat.toDigits_ne_nil (n := number) (b := 10))
  by_cases zero : first = '0'
  · obtain rfl := head_toDigits (by rw [shape, zero]; rfl)
    rfl
  · rw [shape] at digits ⊢
    obtain ⟨digit, later⟩ := List.forall_mem_cons.mp digits
    have all : rest.dropWhile Char.isDigit = [] := List.dropWhile_eq_nil_iff.mpr later
    rw [afterInteger, afterDigits, if_pos digit, all]
    exact fun _ same => zero (List.cons.inj same).1

/-- The digits of a number are a word for it. The words that are no numbers have letters that are no
digits.
-/
theorem wordValue?_toString (number : Nat)
    : wordValue? (toString number).toList = some (.natural number) := by
  have unnamed (word : String) (letter : Char) (member : letter ∈ word.toList)
      (other : letter.isDigit = false)
      : toString number ≠ word := by
    rintro rfl
    cases other.symm.trans (Text.isDigit_of_mem_toString member)
  have value
      : (toString number).toList.foldl (fun value c => 10 * value + (c.toNat - '0'.toNat)) 0
        = number := by
    rw [← Nat.ofDigitChars_eq_foldl, Nat.toString_eq_repr, Nat.toList_repr,
      Nat.ofDigitChars_ten_toDigits]
  unfold wordValue?
  rw [String.ofList_toList, if_neg (unnamed "null" 'n' (by decide) rfl),
    if_neg (unnamed "true" 't' (by decide) rfl), if_neg (unnamed "false" 'f' (by decide) rfl),
    if_pos (afterInteger_toString number), value]

/-- What ends a word is one of eleven characters, none of which is a digit. -/
theorem not_endsWord_of_isDigit {c : Char} (digit : c.isDigit = true) : ¬EndsWord c := by
  have different (other : Char) (noDigit : other.isDigit = false) : c ≠ other := by
    rintro rfl
    cases noDigit.symm.trans digit
  simp [EndsWord, isSpace, mark?, different]

theorem scans_natural (number : Nat) : Scans (toString number).toList [.value (.natural number)] :=
  scans_word (fun _ member => not_endsWord_of_isDigit (Text.isDigit_of_mem_toString member))
    (wordValue?_toString number)

-----------------------------------------------------------------------------------------
-- Strings
-----------------------------------------------------------------------------------------

/-- A character of a string is written as an escape of one letter, as an escape of its number or as
itself, by the cases of writing.
-/
theorem escapeChar_cases (c : Char)
    : (∃ letter,
        letter ≠ 'u'
        ∧ escaped? letter = some c.toNat
        ∧ (escapeChar c).toList = ['\\', letter])
      ∨ (c.toNat < 32
        ∧ (escapeChar c).toList
          = ['\\', 'u', '0', '0', Nat.digitChar (c.toNat / 16), Nat.digitChar (c.toNat % 16)])
      ∨ (c ≠ '"' ∧ c ≠ '\\' ∧ 32 ≤ c.toNat ∧ (escapeChar c).toList = [c]) := by
  by_cases quote : c = '"'
  · exact Or.inl ⟨'"', by decide, by subst quote; rfl, by subst quote; rfl⟩
  by_cases backslash : c = '\\'
  · exact Or.inl ⟨'\\', by decide, by subst backslash; rfl, by subst backslash; rfl⟩
  unfold escapeChar
  rw [if_neg quote, if_neg backslash]
  split
  · next code => exact Or.inl ⟨'b', by decide, code ▸ rfl, rfl⟩
  split
  · next code => exact Or.inl ⟨'t', by decide, code ▸ rfl, rfl⟩
  split
  · next code => exact Or.inl ⟨'n', by decide, code ▸ rfl, rfl⟩
  split
  · next code => exact Or.inl ⟨'f', by decide, code ▸ rfl, rfl⟩
  split
  · next code => exact Or.inl ⟨'r', by decide, code ▸ rfl, rfl⟩
  split
  · next control => exact Or.inr (Or.inl ⟨control, String.toList_ofList⟩)
  · next shown => exact Or.inr (Or.inr ⟨quote, backslash, Nat.le_of_not_lt shown, by simp⟩)

theorem hexDigit?_digitChar {digit : Nat} (small : digit < 16)
    : hexDigit? (Nat.digitChar digit) = some digit := by
  have each : ∀ digit < 16, hexDigit? (Nat.digitChar digit) = some digit := by decide
  exact each digit small

/-- A character keeps its code through writing and reading, by the cases of its escape. -/
theorem scanRest_escapeChar (c : Char) (codes : List Nat) (done : List Token) (rest : List Char)
    : scanRest ⟨.text codes, done⟩ ((escapeChar c).toList ++ rest)
        = scanRest ⟨.text (c.toNat :: codes), done⟩ rest := by
  have opens : advanceScan ⟨.text codes, done⟩ '\\' = some ⟨.escape codes, done⟩ := rfl
  rcases escapeChar_cases c with
    ⟨letter, named, code, written⟩ | ⟨control, written⟩ | ⟨quote, backslash, shown, written⟩
  · have closes
        : advanceScan ⟨.escape codes, done⟩ letter = some ⟨.text (c.toNat :: codes), done⟩ := by
      simp [advanceScan, named, code]
    rw [written]
    exact (scanRest_cons opens _).trans (scanRest_cons closes rest)
  · have high := hexDigit?_digitChar (Nat.div_lt_of_lt_mul (by omega : c.toNat < 16 * 16))
    have low := hexDigit?_digitChar (Nat.mod_lt c.toNat (by decide : 0 < 16))
    have value : 16 * (c.toNat / 16) + c.toNat % 16 = c.toNat := Nat.div_add_mod c.toNat 16
    have third
        : advanceScan ⟨.hex codes 1 0, done⟩ (Nat.digitChar (c.toNat / 16))
          = some ⟨.hex codes 0 (c.toNat / 16), done⟩ := by
      simp [advanceScan, high]
    have fourth
        : advanceScan ⟨.hex codes 0 (c.toNat / 16), done⟩ (Nat.digitChar (c.toNat % 16))
          = some ⟨.text (c.toNat :: codes), done⟩ := by
      simp [advanceScan, low, value]
    rw [written]
    calc scanRest ⟨.text codes, done⟩ _
        = scanRest ⟨.hex codes 1 0, done⟩ _ := rfl
      _ = scanRest ⟨.hex codes 0 (c.toNat / 16), done⟩ _ := scanRest_cons third _
      _ = scanRest ⟨.text (c.toNat :: codes), done⟩ rest := scanRest_cons fourth rest
  · have advances
        : advanceScan ⟨.text codes, done⟩ c = some ⟨.text (c.toNat :: codes), done⟩ := by
      simp [advanceScan, quote, backslash, Nat.not_lt.mpr shown]
    rw [written]
    exact scanRest_cons advances rest

/-- Characters are no halves of surrogate pairs, so the text of their codes is theirs. By induction
on the characters, the last one first.
-/
theorem foldlM_pairStep (reversed chars : List Char)
    : (reversed.map Char.toNat).foldlM pairStep (none, chars)
        = some (none, reversed.reverse ++ chars) := by
  induction reversed generalizing chars with
  | nil => rfl
  | cons c rest ih =>
      have single : pairStep (none, chars) c.toNat = some (none, c :: chars) := by
        have whole : c.toNat < 0xD800 ∨ 0xE000 ≤ c.toNat := by
          rcases c.valid with low | ⟨high, -⟩
          · exact Or.inl low
          · exact Or.inr high
        simp only [pairStep]
        rw [if_neg (by omega), if_neg (by omega), Char.ofNat_toNat]
      rw [List.map_cons, List.foldlM_cons, single]
      exact (ih (c :: chars)).trans (by simp)

theorem textValue_codes (text : List Char)
    : textValue (text.reverse.map Char.toNat) = .text (String.ofList text) := by
  rw [textValue, foldlM_pairStep, List.reverse_reverse, List.append_nil]

/-- The characters of a string are read up to its closing quote, by induction on them. -/
theorem scanRest_text (text : List Char) (codes : List Nat) (done : List Token) (rest : List Char)
    : scanRest ⟨.text codes, done⟩ (text.flatMap (fun c => (escapeChar c).toList) ++ '"' :: rest)
        = scanRest
            ⟨.between, .value (textValue (text.reverse.map Char.toNat ++ codes)) :: done⟩
            rest := by
  induction text generalizing codes with
  | nil => exact scanRest_cons rfl rest
  | cons c others ih =>
      rw [List.flatMap_cons, List.append_assoc, scanRest_escapeChar, ih, List.reverse_cons,
        List.map_append, List.append_assoc]
      rfl

/-- A string in quotes stands for its text. -/
theorem scans_quote (content : String) : Scans (quote content).toList [.value (.text content)] := by
  intro done rest _
  have shape
      : (quote content).toList ++ rest
        = '"' :: (content.toList.flatMap (fun c => (escapeChar c).toList) ++ '"' :: rest) := by
    simp [quote, String.toList_join, List.flatMap_map]
  have opens : advanceScan ⟨.between, done⟩ '"' = some ⟨.text [], done⟩ := rfl
  rw [shape, scanRest_cons opens, scanRest_text, List.append_nil, textValue_codes,
    String.ofList_toList]
  rfl

end Dialogue.Json
