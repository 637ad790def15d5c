import TestMeasures.Decimal.Binary64

/-!
# Decimal numerals

The text of a floating-point number: a sign, digits with an optional point among or beside them, and an
optional exponent; or a word for an infinity or for no number at all.
-/

namespace TestMeasures

/-- The decimal digit of a character. -/
def digit? (c : Char) : Option Nat :=
  if '0' ≤ c ∧ c ≤ '9' then some (c.toNat - '0'.toNat) else none

/-- Whether a character is an ASCII decimal digit. -/
def isDigit (c : Char) : Bool :=
  '0' ≤ c && c ≤ '9'

/-- The number that decimal digits denote; other characters count as zero. -/
def digitsValue (digits : List Char) : Nat :=
  digits.foldl (fun value c => value * 10 + (digit? c).getD 0) 0

/-- The decimal digits of a natural number. -/
def decimalDigits (n : Nat) : List Char :=
  Nat.toDigits 10 n

/-- The value of a natural number written in decimal digits, at least one, behind an optional plus. -/
def natural? (text : List Char) : Option Nat :=
  let digits := match text with
    | '+' :: rest => rest
    | other => other
  if digits.isEmpty then none else if digits.all isDigit then some (digitsValue digits) else none

/-- A decimal number: `digits * 10 ^ exponent`, with a sign. -/
structure Decimal where
  negative : Bool
  digits : Nat
  exponent : Int
deriving Repr, DecidableEq, Inhabited

namespace Decimal

/-- The binary64 number nearest to a decimal number. Far outside the range of the format the answer is
known from the number of digits alone. -/
def toBinary64 (decimal : Decimal) : Binary64 :=
  let magnitude : Int := ((decimalDigits decimal.digits).length : Int) + decimal.exponent
  if decimal.digits = 0 then .finite decimal.negative 0 Binary64.leastExponent
  else if magnitude > 400 then .infinite decimal.negative
  else if magnitude < -400 then .finite decimal.negative 0 Binary64.leastExponent
  else if decimal.exponent ≥ 0 then
    Binary64.ofRatio decimal.negative (decimal.digits * Nat.pow 10 decimal.exponent.toNat) 1
  else Binary64.ofRatio decimal.negative decimal.digits (Nat.pow 10 (-decimal.exponent).toNat)

end Decimal

/-- Why a text is no floating-point number. -/
inductive NumeralFault where
  | empty
  | invalid
deriving Repr, DecidableEq, Inhabited

/-- The message of a text that is no floating-point number. -/
def NumeralFault.message : NumeralFault → String
  | .empty => "cannot parse float from empty string"
  | .invalid => "invalid float literal"

/-- The exponent of a numeral, given what follows its digits. -/
def readExponent? : List Char → Option Int
  | [] => some 0
  | mark :: rest =>
    if mark = 'e' ∨ mark = 'E' then
      let (negative, digits) := match rest with
        | '+' :: digits => (false, digits)
        | '-' :: digits => (true, digits)
        | digits => (false, digits)
      if digits.isEmpty then none
      else if digits.all isDigit then
        some (if negative then -(digitsValue digits : Int) else digitsValue digits)
      else none
    else none

/-- The decimal number of an unsigned numeral. -/
def readDecimal? (negative : Bool) (chars : List Char) : Option Decimal :=
  let whole := chars.takeWhile isDigit
  let (places, rest) := match chars.drop whole.length with
    | '.' :: rest => (rest.takeWhile isDigit, rest.dropWhile isDigit)
    | rest => ([], rest)
  if whole.isEmpty && places.isEmpty then none
  else
    (readExponent? rest).map fun exponent =>
      ⟨negative, digitsValue (whole ++ places), exponent - places.length⟩

/-- The words for numbers without digits, in lower case. -/
def namedNumber? (negative : Bool) (chars : List Char) : Option Binary64 :=
  let word := String.ofList (chars.map Char.toLower)
  if word = "inf" ∨ word = "infinity" then some (.infinite negative)
  else if word = "nan" then some .notANumber
  else none

/-- Reads a floating-point number. -/
def Binary64.read (text : String) : Except NumeralFault Binary64 :=
  match text.toList with
  | [] => .error .empty
  | first :: rest =>
    let negative := first = '-'
    let unsigned := if first = '-' ∨ first = '+' then rest else first :: rest
    match namedNumber? negative unsigned with
    | some number => .ok number
    | none =>
      match readDecimal? negative unsigned with
      | some decimal => .ok decimal.toBinary64
      | none => .error .invalid

end TestMeasures
