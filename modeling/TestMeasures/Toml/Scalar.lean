import TestMeasures.Decimal.Numeral
import TestMeasures.Toml.Value

/-!
# Numbers, truth values and points in time

Values that are written without quotes or brackets. Digits may be grouped by single underscores; a point
in time is a date, a time of day, or both with an optional offset.
-/

namespace TestMeasures.Toml

/-- A digit of a base, in either case of letters. -/
def baseDigit? (base : Nat) (c : Char) : Option Nat :=
  let n := c.toNat
  let value :=
    if 0x30 ≤ n ∧ n ≤ 0x39 then some (n - 0x30)
    else if 0x41 ≤ n ∧ n ≤ 0x46 then some (n - 0x37)
    else if 0x61 ≤ n ∧ n ≤ 0x66 then some (n - 0x57)
    else none
  value.filter (· < base)

/-- The digits of a group notation: at least one, and an underscore only between two of them. -/
def ungroup? (base : Nat) : List Char → Option (List Char)
  | [] => none
  | [c] => if (baseDigit? base c).isSome then some [c] else none
  | c :: d :: rest =>
    if (baseDigit? base c).isNone then none
    else if d = '_' then (ungroup? base rest).map (c :: ·)
    else (ungroup? base (d :: rest)).map (c :: ·)

/-- The number that digits of a base denote. -/
def baseValue (base : Nat) (digits : List Char) : Nat :=
  digits.foldl (fun value c => value * base + (baseDigit? base c).getD 0) 0

/-- Splits a sign off. -/
def splitSign : List Char → Option Bool × List Char
  | '+' :: rest => (some false, rest)
  | '-' :: rest => (some true, rest)
  | other => (none, other)

/-- The digits of a whole number in base ten, which start with zero only if that is all. -/
def decimalDigits? (chars : List Char) : Option (List Char) :=
  (ungroup? 10 chars).filter fun digits => digits.length = 1 ∨ digits.head? ≠ some '0'

/-- An integer that fits into sixty-four bits. -/
def inRange? (value : Int) : Option Value :=
  if -0x8000000000000000 ≤ value ∧ value < 0x8000000000000000 then some (.integer value) else none

/-- An integer in base ten, or behind a mark in base two, eight or sixteen. -/
def integer? (chars : List Char) : Option Value :=
  match chars with
  | '0' :: 'x' :: digits => (ungroup? 16 digits).bind fun ds => inRange? (baseValue 16 ds)
  | '0' :: 'o' :: digits => (ungroup? 8 digits).bind fun ds => inRange? (baseValue 8 ds)
  | '0' :: 'b' :: digits => (ungroup? 2 digits).bind fun ds => inRange? (baseValue 2 ds)
  | _ =>
    let (sign, unsigned) := splitSign chars
    (decimalDigits? unsigned).bind fun digits =>
      inRange? (if sign = some true then -(baseValue 10 digits : Int) else baseValue 10 digits)

/-- The exponent of a float behind its mark; it may start with zeros. -/
def exponent? (chars : List Char) : Option Int :=
  let (sign, unsigned) := splitSign chars
  (ungroup? 10 unsigned).map fun digits =>
    if sign = some true then -(baseValue 10 digits : Int) else baseValue 10 digits

/-- A float: a whole part, and a fraction or an exponent or both. It must not be too large. -/
def float? (chars : List Char) : Option Value := do
  let (sign, unsigned) := splitSign chars
  let negative := sign = some true
  if unsigned = "inf".toList then some (.number (.infinite negative))
  else if unsigned = "nan".toList then some (.number .notANumber)
  else do
    let isMark := fun c => c == 'e' || c == 'E'
    let mantissa := unsigned.takeWhile fun c => !isMark c
    let tail := unsigned.drop mantissa.length
    let exponent ← match tail with
      | [] => some 0
      | _ :: rest => exponent? rest
    let wholeChars := mantissa.takeWhile (· != '.')
    let whole ← decimalDigits? wholeChars
    let places ← match mantissa.drop wholeChars.length with
      | [] => if tail.isEmpty then none else some []
      | _ :: rest => ungroup? 10 rest
    let value := (Decimal.mk negative (baseValue 10 (whole ++ places)) (exponent - places.length)).toBinary64
    if value.isFinite then some (.number value) else none

/-- A number of exactly so many digits. -/
def fixed? (size : Nat) (chars : List Char) : Option Nat :=
  if chars.length = size ∧ chars.all isDigit then some (digitsValue chars) else none

/-- A number of exactly two digits up to a bound. -/
def pair? (bound : Nat) (chars : List Char) : Option Nat :=
  (fixed? 2 chars).filter (· ≤ bound)

/-- The number of days of a month. -/
def daysOf (year month : Nat) : Nat :=
  if month = 2 then
    if year % 4 = 0 ∧ (year % 100 ≠ 0 ∨ year % 400 = 0) then 29 else 28
  else if month = 4 ∨ month = 6 ∨ month = 9 ∨ month = 11 then 30
  else 31

/-- The text of a date `YYYY-MM-DD` that exists. -/
def date? (chars : List Char) : Option (List Char) := do
  let year ← fixed? 4 (chars.take 4)
  let month ← pair? 12 ((chars.drop 5).take 2)
  let day ← fixed? 2 (chars.drop 8)
  if chars[4]? = some '-' ∧ chars[7]? = some '-' ∧ 1 ≤ month ∧ 1 ≤ day ∧ day ≤ daysOf year month then
    some chars
  else none

/-- The text of a fraction of a second: at most nine digits, without zeros at the end, but at least one
digit. -/
def fractionText (digits : List Char) : List Char :=
  let kept := ((digits.take 9).reverse.dropWhile (· == '0')).reverse
  if kept.isEmpty then ['0'] else kept

/-- The text of a time `HH:MM`, with optional seconds and a fraction of one. -/
def time? (chars : List Char) : Option (List Char) := do
  let _ ← pair? 23 (chars.take 2)
  let _ ← pair? 59 ((chars.drop 3).take 2)
  if chars[2]? ≠ some ':' then none
  else
    match chars.drop 5 with
    | [] => some chars
    | ':' :: rest => do
      let _ ← pair? 60 (rest.take 2)
      match rest.drop 2 with
      | [] => some chars
      | '.' :: digits =>
        if digits.isEmpty then none
        else if digits.all isDigit then some (chars.take 8 ++ '.' :: fractionText digits)
        else none
      | _ => none
    | _ => none

/-- The text of an offset from universal time. -/
def offset? (chars : List Char) : Option (List Char) :=
  match chars with
  | ['Z'] => some ['Z']
  | ['z'] => some ['Z']
  | sign :: rest => do
    let hours ← pair? 23 (rest.take 2)
    let minutes ← pair? 59 (rest.drop 3)
    if (sign = '+' ∨ sign = '-') ∧ rest[2]? = some ':' then
      some ((if hours = 0 ∧ minutes = 0 then '+' else sign) :: rest)
    else none
  | [] => none

/-- A date, a time, or both with an optional offset. -/
def moment? (chars : List Char) : Option Value :=
  let text := fun (cs : List Char) => Value.moment (String.ofList cs)
  match date? (chars.take 10) with
  | none => (time? chars).map text
  | some date =>
    match chars.drop 10 with
    | [] => some (text date)
    | separator :: rest =>
      if separator = 'T' ∨ separator = 't' ∨ separator = ' ' then do
        let isOffset := fun c => c == 'Z' || c == 'z' || c == '+' || c == '-'
        let timeChars := rest.takeWhile fun c => !isOffset c
        let time ← time? timeChars
        match rest.drop timeChars.length with
        | [] => some (text (date ++ 'T' :: time))
        | tail => (offset? tail).map fun offset => text (date ++ 'T' :: (time ++ offset))
      else none

/-- A value that is written without quotes or brackets. -/
def scalar? (chars : List Char) : Option Value :=
  if chars = "true".toList then some (.truth true)
  else if chars = "false".toList then some (.truth false)
  else ((integer? chars).orElse fun _ => float? chars).orElse fun _ => moment? chars

end TestMeasures.Toml
