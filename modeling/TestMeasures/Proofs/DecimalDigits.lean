import Mathlib.Algebra.Group.Nat.Defs
import Mathlib.Data.List.Induction
import TestMeasures.Decimal.Numeral
import TestMeasures.Text.Blank

/-!
# Decimal digits

What is read as digits, and the number that digits denote: `digits_value_eq` says that it is the one of decimal
notation.
-/

namespace TestMeasures

/-- The digits are ten characters in a row. -/
theorem is_digit_iff {c : Char} : isDigit c = true ↔ 48 ≤ c.toNat ∧ c.toNat ≤ 57 := by
  unfold isDigit
  rw [Bool.and_eq_true, decide_eq_true_iff, decide_eq_true_iff, Char.le_def, Char.le_def,
    UInt32.le_iff_toNat_le, UInt32.le_iff_toNat_le]
  rfl

/-- A digit is none of the characters that are not digits. -/
theorem is_digit_ne {c other : Char} (h : isDigit c = true) (hother : isDigit other = false) : c ≠ other := by
  rintro rfl
  rw [h] at hother
  cases hother

/-- No digit is a blank. -/
theorem is_blank_of_digit {c : Char} (h : isDigit c = true) : Text.isBlank c = false := by
  obtain ⟨hlow, hhigh⟩ := is_digit_iff.mp h
  refine Bool.eq_false_iff.mpr fun hblank => ?_
  simp only [Text.isBlank, Bool.or_eq_true, Bool.and_eq_true, beq_iff_eq, decide_eq_true_eq] at hblank
  omega

/-- A digit has no other case. -/
theorem to_lower_of_digit {c : Char} (h : isDigit c = true) : c.toLower = c := by
  obtain ⟨hlow, hhigh⟩ := is_digit_iff.mp h
  unfold Char.toLower
  rw [dif_neg]
  rintro ⟨hupper, -⟩
  have : 65 ≤ c.toNat := UInt32.le_iff_toNat_le.mp hupper
  omega

/-- A digit is at most nine. -/
theorem digit_le (c : Char) : (digit? c).getD 0 ≤ 9 := by
  unfold digit?
  split
  case isTrue h =>
    obtain ⟨-, hhigh⟩ := is_digit_iff.mp (by simpa [isDigit] using h)
    show c.toNat - 48 ≤ 9
    omega
  case isFalse => exact Nat.zero_le 9

/-- Digits stand for less than the power of ten that has one digit more. -/
theorem digits_value_lt (digits : List Char) : digitsValue digits < 10 ^ digits.length := by
  induction digits using List.reverseRecOn with
  | nil => exact Nat.one_pos
  | append_singleton digits c ih =>
      have hle := digit_le c
      have hvalue : digitsValue (digits ++ [c]) = digitsValue digits * 10 + (digit? c).getD 0 := by
        simp [digitsValue]
      rw [hvalue, List.length_append, List.length_singleton, Nat.pow_succ]
      omega

/-- Digits, at least one. -/
def IsNumeral (chars : List Char) : Prop :=
  chars ≠ [] ∧ ∀ c ∈ chars, isDigit c = true

instance (chars : List Char) : Decidable (IsNumeral chars) :=
  inferInstanceAs (Decidable (_ ∧ _))

/-- Digits are read as the natural number that they denote. -/
theorem IsNumeral.natural {digits : List Char} (h : IsNumeral digits) :
    natural? digits = some (digitsValue digits) := by
  cases digits with
  | nil => exact absurd rfl h.1
  | cons c rest =>
      have hplus : c ≠ '+' := is_digit_ne (h.2 c List.mem_cons_self) rfl
      unfold natural?
      split
      case h_1 heq => exact absurd (List.cons.inj heq).1 hplus
      case h_2 =>
        have hall : (c :: rest).all isDigit = true := List.all_eq_true.mpr h.2
        simp [hall]

/-- The digits are those of the library. -/
theorem is_digit_eq (c : Char) : isDigit c = c.isDigit := by
  rw [Bool.eq_iff_iff, is_digit_iff]
  simp only [Char.isDigit, Bool.and_eq_true, decide_eq_true_eq, ge_iff_le, UInt32.le_iff_toNat_le]
  rfl

/-- A digit is its distance from the character of zero. -/
theorem digit_of_is_digit {c : Char} (h : isDigit c = true) : (digit? c).getD 0 = c.toNat - '0'.toNat := by
  unfold digit?
  rw [if_pos (by simpa [isDigit] using h)]
  rfl

/-- The value of digits is the number that they denote in decimal notation. -/
theorem digits_value_eq {digits : List Char} (h : ∀ c ∈ digits, isDigit c = true) :
    digitsValue digits = Nat.ofDigitChars 10 digits 0 := by
  have hfold : ∀ start, digits.foldl (fun value c => value * 10 + (digit? c).getD 0) start =
      Nat.ofDigitChars 10 digits start := by
    induction digits with
    | nil => exact fun start => rfl
    | cons c digits ih =>
        intro start
        obtain ⟨hc, hdigits⟩ := List.forall_mem_cons.mp h
        rw [List.foldl_cons, Nat.ofDigitChars_cons, digit_of_is_digit hc, Nat.mul_comm start 10]
        exact ih hdigits _
  exact hfold 0

end TestMeasures
