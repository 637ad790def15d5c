import TestMeasures.Decimal.Shortest
import TestMeasures.Text.Quoted

/-!
# Faults of a JSON text

What is wrong and at which byte; a position is told as a line and the number of bytes before it on that
line.
-/

namespace TestMeasures.Json

/-- A value where another kind of value was expected. -/
inductive Found where
  | null
  | truth (value : Bool)
  | integer (value : Int)
  | number (value : Binary64)
  | text (value : String)
  | sequence
  | map
deriving Repr, DecidableEq, Inhabited

/-- The digits of a number with a signed exponent where that is shorter to read: positional below
`10 ^ 16` and down to the fifth place, with at least one place. -/
def numberText (negative : Bool) (digits : List Char) (place : Int) : String :=
  let size : Int := digits.length + place
  let exponent := (if size > 0 then "+" else "").toList ++ (toString (size - 1)).toList
  let body :=
    if 0 ≤ place ∧ size ≤ 16 then Binary64.plainDigits digits place ++ ['.', '0']
    else if -5 < size ∧ size ≤ 16 then Binary64.plainDigits digits place
    else if digits.length = 1 then digits ++ 'e' :: exponent
    else digits.take 1 ++ '.' :: (digits.drop 1 ++ 'e' :: exponent)
  String.ofList (if negative then '-' :: body else body)

/-- The text of a finite number in a message. -/
def binary64Text : Binary64 → String
  | .finite negative mantissa exponent =>
    if mantissa = 0 then (if negative then "-0.0" else "0.0")
    else
      let shortest := Binary64.shortestDigits .even mantissa exponent
      numberText negative (decimalDigits shortest.1) shortest.2
  | other => other.plainText

/-- How a value is named in a message. -/
def Found.message : Found → String
  | .null => "null"
  | .truth value => "boolean `" ++ (if value then "true" else "false") ++ "`"
  | .integer value => "integer `" ++ toString value ++ "`"
  | .number value => "floating point `" ++ binary64Text value ++ "`"
  | .text value => "string " ++ Text.quoted value
  | .sequence => "sequence"
  | .map => "map"

/-- What is wrong with a JSON text. -/
inductive Fault where
  | endInValue
  | endInObject
  | endInString
  | expectedColon
  | expectedCommaOrEnd
  | expectedWord
  | expectedValue
  | invalidEscape
  | invalidNumber
  | outOfRange
  | controlCharacter
  | keyNotString
  | loneSurrogate
  | trailingComma
  | trailingCharacters
  | endOfEscape
  | wrongType (found : Found) (expected : String)
deriving Repr, DecidableEq, Inhabited

/-- The message of a fault, without its position. -/
def Fault.message : Fault → String
  | .endInValue => "EOF while parsing a value"
  | .endInObject => "EOF while parsing an object"
  | .endInString => "EOF while parsing a string"
  | .expectedColon => "expected `:`"
  | .expectedCommaOrEnd => "expected `,` or `\x7d`"
  | .expectedWord => "expected ident"
  | .expectedValue => "expected value"
  | .invalidEscape => "invalid escape"
  | .invalidNumber => "invalid number"
  | .outOfRange => "number out of range"
  | .controlCharacter => "control character (\\u0000-\\u001F) found while parsing a string"
  | .keyNotString => "key must be a string"
  | .loneSurrogate => "lone leading surrogate in hex escape"
  | .trailingComma => "trailing comma"
  | .trailingCharacters => "trailing characters"
  | .endOfEscape => "unexpected end of hex escape"
  | .wrongType found expected => "invalid type: " ++ found.message ++ ", expected " ++ expected

/-- A fault and the number of bytes before it. -/
structure Error where
  fault : Fault
  index : Nat
deriving Repr, DecidableEq, Inhabited

/-- The line of a place and the number of bytes before it on the line. -/
def lineColumn (line column : Nat) : List UInt8 → Nat × Nat
  | [] => (line, column)
  | b :: rest =>
    if b = 0x0A then lineColumn (line + 1) 0 rest else lineColumn line (column + 1) rest

/-- The message of an error in a text. -/
def Error.message (error : Error) (text : List UInt8) : String :=
  let place := lineColumn 1 0 (text.take error.index)
  error.fault.message ++ " at line " ++ toString place.1 ++ " column " ++ toString place.2

end TestMeasures.Json
