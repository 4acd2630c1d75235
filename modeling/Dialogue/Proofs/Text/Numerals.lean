import Dialogue.Text.Blank
import Dialogue.Text.Numeral

/-! Numbers written in decimal are read back, and what is read is a number written in decimal. -/

namespace Dialogue.Text

theorem le_ofDigitChars (digits : List Char) (value : Nat)
    : value ≤ Nat.ofDigitChars 10 digits value := by
  induction digits generalizing value with
  | nil => simp
  | cons c rest ih =>
      rw [Nat.ofDigitChars_cons]
      exact Nat.le_trans (by omega) (ih _)

/-- Digits are read as their value as long as it is within the bound, by induction on them. -/
theorem readDigits_eq_ok {bound value : Nat} {digits : List Char}
    (all : ∀ c ∈ digits, c.isDigit = true) (inBound : Nat.ofDigitChars 10 digits value ≤ bound)
    : readDigits bound value digits = .ok (Nat.ofDigitChars 10 digits value) := by
  induction digits generalizing value with
  | nil => simp [readDigits]
  | cons c rest ih =>
      rw [Nat.ofDigitChars_cons] at inBound ⊢
      have soFar := Nat.le_trans (le_ofDigitChars rest _) inBound
      rw [readDigits, if_pos (all c List.mem_cons_self), digitValue, if_pos soFar]
      exact ih (fun other member => all other (List.mem_cons_of_mem _ member)) inBound

/-- What is read is the value of the digits, by induction on them: a number that is within the bound
at the end was so on the way.
-/
theorem readDigits_eq_ok_iff {bound value number : Nat} {digits : List Char}
    (inBound : value ≤ bound)
    : readDigits bound value digits = .ok number
      ↔ (∀ c ∈ digits, c.isDigit = true)
        ∧ Nat.ofDigitChars 10 digits value = number
        ∧ number ≤ bound := by
  constructor
  · intro read
    induction digits generalizing value with
    | nil =>
        obtain rfl := Except.ok.inj read
        simpa using inBound
    | cons c rest ih =>
        rw [readDigits] at read
        split at read
        · next digit =>
            split at read
            · next soFar =>
                obtain ⟨all, same, last⟩ := ih soFar read
                refine ⟨?_, by rwa [Nat.ofDigitChars_cons], last⟩
                simpa [digit] using all
            · cases read
        · cases read
  · rintro ⟨all, rfl, last⟩
    exact readDigits_eq_ok all last

/-- The text is a plus sign or nothing and then one or more digits, and these have this value. -/
def Denotes (text : List Char) (number : Nat) : Prop :=
  ∃ digits,
    (text = digits ∨ text = '+' :: digits)
    ∧ digits ≠ []
    ∧ (∀ c ∈ digits, c.isDigit = true)
    ∧ Nat.ofDigitChars 10 digits 0 = number

/-- A number is read exactly if the text denotes it and it is within the bound, by cases on whether
there is a plus sign, which is no digit.
-/
theorem readNumeral_eq_ok_iff {bound number : Nat} {text : List Char}
    : readNumeral bound text = .ok number ↔ Denotes text number ∧ number ≤ bound := by
  unfold readNumeral
  split
  · constructor
    · exact fun failed => nomatch failed
    · rintro ⟨⟨digits, rfl | signed, filled, -⟩, -⟩
      · exact absurd rfl filled
      · cases signed
  · next c rest =>
      rw [readDigits_eq_ok_iff (Nat.zero_le bound)]
      constructor
      · rintro ⟨all, value, inBound⟩
        exact ⟨⟨c :: rest, Or.inr rfl, List.cons_ne_nil c rest, all, value⟩, inBound⟩
      · rintro ⟨⟨digits, rfl | signed, -, all, value⟩, inBound⟩
        · cases all '+' List.mem_cons_self
        · obtain rfl := (List.cons.inj signed).2
          exact ⟨all, value, inBound⟩
  · next filled unsigned =>
      rw [readDigits_eq_ok_iff (Nat.zero_le bound)]
      constructor
      · rintro ⟨all, value, inBound⟩
        exact ⟨⟨text, Or.inl rfl, filled, all, value⟩, inBound⟩
      · rintro ⟨⟨digits, rfl | rfl, someDigit, all, value⟩, inBound⟩
        · exact ⟨all, value, inBound⟩
        · obtain ⟨c, rest, rfl⟩ := List.exists_cons_of_ne_nil someDigit
          exact absurd rfl (unsigned c rest)

theorem isDigit_of_mem_toString {number : Nat} {c : Char} (member : c ∈ (toString number).toList)
    : c.isDigit = true := by
  apply Nat.isDigit_of_mem_toDigits (by decide : 0 < 10) (Nat.le_refl 10)
  rwa [← Nat.toList_repr]

/-- Numbers are told apart by their digits, since they are read back from them. -/
theorem toString_inj {number other : Nat} : toString number = toString other ↔ number = other := by
  constructor
  · intro same
    have values := congrArg (fun text => Nat.ofDigitChars 10 text.toList 0) same
    simpa [Nat.toString_eq_repr, Nat.toList_repr, Nat.ofDigitChars_ten_toDigits] using values
  · rintro rfl
    rfl

/-- Decimal digits denote the number that they are written for. -/
theorem denotes_toString (number : Nat) : Denotes (toString number).toList number := by
  refine ⟨_, Or.inl rfl, ?_, fun c member => isDigit_of_mem_toString member, ?_⟩
  · rw [Nat.toString_eq_repr, Nat.toList_repr]
    exact Nat.toDigits_ne_nil
  · rw [Nat.toString_eq_repr, Nat.toList_repr, Nat.ofDigitChars_ten_toDigits]

/-- A number within the bound is read from its decimal digits. -/
theorem readNumeral_toString {bound number : Nat} (inBound : number ≤ bound)
    : readNumeral bound (toString number).toList = .ok number :=
  readNumeral_eq_ok_iff.mpr ⟨denotes_toString number, inBound⟩

/-- No digit is blank: the codes of digits lie between those of blanks. -/
theorem isBlank_of_isDigit {c : Char} (digit : c.isDigit = true) : isBlank c = false := by
  obtain ⟨low, high⟩ : 48 ≤ c.toNat ∧ c.toNat ≤ 57 := by
    simp only [Char.isDigit, Bool.and_eq_true, decide_eq_true_eq, UInt32.le_iff_toNat_le] at digit
    exact digit
  simp only [isBlank, Bool.or_eq_false_iff, Bool.and_eq_false_iff, decide_eq_false_iff_not,
    beq_eq_false_iff_ne]
  omega

end Dialogue.Text
