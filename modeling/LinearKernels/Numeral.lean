/-!
Numbers and words as text. Decimal and hexadecimal numerals have no leading zeros; a numeral
can be padded to a fixed width. Reading takes the value of a digit list in base ten. Words are
made of letters, digits and underscores.
-/

namespace LinearKernels

def decimal (n : Nat) : String :=
  String.ofList (Nat.toDigits 10 n)

/-- Hexadecimal digits in lower case. -/
def hexadecimal (n : Nat) : String :=
  String.ofList (Nat.toDigits 16 n)

/-- Four hexadecimal digits at least, in lower case. -/
def hexadecimal4 (n : Nat) : String :=
  String.ofList ((Nat.toDigits 16 n).leftpad 4 '0')

/-- Four hexadecimal digits at least, in upper case. -/
def hexadecimal4Upper (n : Nat) : String :=
  String.ofList (((Nat.toDigits 16 n).map Char.toUpper).leftpad 4 '0')

/-- The value of a list of decimal digits, most significant first. -/
def decimalValue (digits : List Char) : Nat :=
  Nat.ofDigitChars 10 digits 0

theorem decimalValue_toList_decimal (n : Nat) : decimalValue (decimal n).toList = n := by
  simp [decimalValue, decimal, Nat.ofDigitChars_ten_toDigits]

/-- A character of names and numerals. -/
def isWordChar (c : Char) : Bool :=
  c.isAlphanum || c = '_'

theorem isAlpha_iff_toNat {c : Char} :
    c.isAlpha = true ↔ (65 ≤ c.toNat ∧ c.toNat ≤ 90) ∨ (97 ≤ c.toNat ∧ c.toNat ≤ 122) := by
  change (decide (65 ≤ c.val ∧ c.val ≤ 90) || decide (97 ≤ c.val) && decide (c.val ≤ 122)) =
    true ↔ _
  rw [Bool.or_eq_true, Bool.and_eq_true, decide_eq_true_eq, decide_eq_true_eq, decide_eq_true_eq]
  rfl

theorem isWordChar_iff {c : Char} :
    isWordChar c = true ↔ c.isAlpha = true ∨ c.isDigit = true ∨ c = '_' := by
  simp [isWordChar, Char.isAlphanum, or_assoc]

theorem toNat_range_of_isWordChar {c : Char} (h : isWordChar c = true) :
    48 ≤ c.toNat ∧ c.toNat ≤ 122 := by
  rw [isWordChar_iff, isAlpha_iff_toNat, Char.isDigit_iff_toNat] at h
  rcases h with halpha | hdigit | rfl
  · omega
  · exact ⟨hdigit.1, Nat.le_trans hdigit.2 (by decide)⟩
  · decide

end LinearKernels
