import TestMeasures.Json.Fault
import TestMeasures.Text.Utf8

/-!
# JSON objects whose values are texts

Reads one JSON object with a text under every key. A value of another kind is read far enough to name
it in the message.
-/

namespace TestMeasures.Json

/-- The bytes to come and the number of bytes before them. -/
structure Cursor where
  index : Nat
  rest : List UInt8
deriving Repr, DecidableEq, Inhabited

/-- Reads something from a cursor. -/
abbrev Read (α : Type) := Except Error (α × Cursor)

namespace Cursor

/-- The cursor behind its first byte. -/
def skip (cursor : Cursor) : Cursor :=
  ⟨cursor.index + 1, cursor.rest.tail⟩

/-- A fault at what has been read. -/
def fail {α : Type} (cursor : Cursor) (fault : Fault) : Except Error α :=
  .error ⟨fault, cursor.index⟩

/-- A fault at the byte to come, which is counted if it exists. -/
def failNext {α : Type} (cursor : Cursor) (fault : Fault) : Except Error α :=
  .error ⟨fault, if cursor.rest.isEmpty then cursor.index else cursor.index + 1⟩

/-- The cursor behind the bytes that satisfy a condition. -/
def skipWhile (p : UInt8 → Bool) (cursor : Cursor) : Cursor :=
  let skipped := cursor.rest.takeWhile p
  ⟨cursor.index + skipped.length, cursor.rest.drop skipped.length⟩

/-- The cursor behind white space. -/
def skipSpace (cursor : Cursor) : Cursor :=
  cursor.skipWhile fun b => b == 0x20 || b == 0x0A || b == 0x09 || b == 0x0D

/-- The cursor behind every byte. -/
def atEnd (cursor : Cursor) : Cursor :=
  ⟨cursor.index + cursor.rest.length, []⟩

end Cursor

/-- The value of a hexadecimal digit. -/
def hexDigit? (b : UInt8) : Option Nat :=
  let n := b.toNat
  if 0x30 ≤ n ∧ n ≤ 0x39 then some (n - 0x30)
  else if 0x41 ≤ n ∧ n ≤ 0x46 then some (n - 0x37)
  else if 0x61 ≤ n ∧ n ≤ 0x66 then some (n - 0x57)
  else none

/-- Reads four hexadecimal digits. -/
def readHex (cursor : Cursor) : Read Nat :=
  match cursor.rest with
  | a :: b :: c :: d :: rest =>
    let after : Cursor := ⟨cursor.index + 4, rest⟩
    match hexDigit? a, hexDigit? b, hexDigit? c, hexDigit? d with
    | some a, some b, some c, some d => .ok (((a * 16 + b) * 16 + c) * 16 + d, after)
    | _, _, _, _ => after.fail .invalidEscape
  | _ => cursor.atEnd.fail .endInString

/-- Expects one byte of the second half of a surrogate pair. -/
def expectPairByte (byte : UInt8) (cursor : Cursor) : Except Error Cursor :=
  match cursor.rest with
  | [] => cursor.fail .endInString
  | b :: _ => if b = byte then .ok cursor.skip else cursor.skip.fail .endOfEscape

/-- Reads the character of a `\u` escape, the second half of a surrogate pair included. -/
def readUnicode (cursor : Cursor) : Except Error (Char × Cursor) := do
  let (high, behind) ← readHex cursor
  if 0xDC00 ≤ high ∧ high ≤ 0xDFFF then behind.fail .loneSurrogate
  else if high < 0xD800 ∨ 0xDBFF < high then .ok (Char.ofNat high, behind)
  else do
    let backslash ← expectPairByte 0x5C behind
    let letter ← expectPairByte 0x75 backslash
    let (low, after) ← readHex letter
    if low < 0xDC00 ∨ 0xDFFF < low then after.fail .loneSurrogate
    else .ok (Char.ofNat ((high - 0xD800) * 1024 + (low - 0xDC00) + 0x10000), after)

/-- Reads what stands behind a backslash. -/
def readEscape (cursor : Cursor) : Read Char :=
  match cursor.rest with
  | [] => cursor.fail .endInString
  | b :: _ =>
    let after := cursor.skip
    if b = 0x22 then .ok ('"', after)
    else if b = 0x5C then .ok ('\\', after)
    else if b = 0x2F then .ok ('/', after)
    else if b = 0x62 then .ok ('\x08', after)
    else if b = 0x66 then .ok ('\x0C', after)
    else if b = 0x6E then .ok ('\n', after)
    else if b = 0x72 then .ok ('\r', after)
    else if b = 0x74 then .ok ('\t', after)
    else if b = 0x75 then readUnicode after
    else after.fail .invalidEscape

/-- Reads the bytes of a string behind its opening quote, given those read before, last one first. Each
step takes a byte, so their number bounds the steps. -/
def readStringFrom : Nat → List UInt8 → Cursor → Read (List UInt8)
  | 0, _, cursor => cursor.fail .endInString
  | fuel + 1, before, cursor =>
    match cursor.rest with
    | [] => cursor.fail .endInString
    | b :: _ =>
      if b = 0x22 then .ok (before.reverse, cursor.skip)
      else if b = 0x5C then
        match readEscape cursor.skip with
        | .error error => .error error
        | .ok (c, after) =>
          readStringFrom fuel ((String.utf8EncodeChar c).reverse ++ before) after
      else if b < 0x20 then cursor.skip.fail .controlCharacter
      else readStringFrom fuel (b :: before) cursor.skip

/-- Reads a string behind its opening quote. -/
def readString (cursor : Cursor) : Read String :=
  match readStringFrom (cursor.rest.length + 1) [] cursor with
  | .error error => .error error
  | .ok (bytes, after) => .ok (Text.Utf8.decodeLossy bytes, after)

/-- The decimal digit of a byte. -/
def byteDigit? (b : UInt8) : Option Nat :=
  if 0x30 ≤ b.toNat ∧ b.toNat ≤ 0x39 then some (b.toNat - 0x30) else none

/-- Whether a byte is a decimal digit. -/
def isByteDigit (b : UInt8) : Bool :=
  (byteDigit? b).isSome

/-- The largest significand that is kept exactly. -/
def significandLimit : Nat := 0xFFFFFFFFFFFFFFFF

/-- Reads digits into a significand as long as it stays in range; answers it and how many were read. -/
def readSignificand : Nat → Nat → Cursor → Nat → Nat × Nat × Cursor
  | 0, significand, cursor, taken => (significand, taken, cursor)
  | fuel + 1, significand, cursor, taken =>
    match cursor.rest.head?.bind byteDigit? with
    | none => (significand, taken, cursor)
    | some digit =>
      if significand * 10 + digit ≤ significandLimit then
        readSignificand fuel (significand * 10 + digit) cursor.skip (taken + 1)
      else (significand, taken, cursor)

/-- A power of ten as a binary64 number. -/
def powerOfTen (exponent : Nat) : Binary64 :=
  Decimal.toBinary64 ⟨false, 1, exponent⟩

/-- Whether a number is a zero. -/
def isZero : Binary64 → Bool
  | .finite _ mantissa _ => mantissa == 0
  | _ => false

/-- Scales a number by a power of ten in steps that the format can hold; nothing if it grows too large. -/
def scaleByTen : Nat → Binary64 → Int → Option Binary64
  | 0, number, _ => some number
  | fuel + 1, number, exponent =>
    if exponent.natAbs ≤ 308 then
      let scaled :=
        if exponent ≥ 0 then number.mul (powerOfTen exponent.natAbs)
        else number.div (powerOfTen exponent.natAbs)
      if scaled.isFinite then some scaled else none
    else if isZero number then some number
    else if exponent ≥ 0 then none
    else scaleByTen fuel (number.div (powerOfTen 308)) (exponent + 308)

/-- The opposite of a number. -/
def negate : Binary64 → Binary64
  | .finite negative mantissa exponent => .finite (!negative) mantissa exponent
  | .infinite negative => .infinite (!negative)
  | .notANumber => .notANumber

/-- The number of a significand and an exponent of ten. -/
def readScaled (positive : Bool) (significand : Nat) (exponent : Int) (cursor : Cursor) :
    Read Found :=
  match scaleByTen 8 (Binary64.ofRatio false significand 1) exponent with
  | none => cursor.fail .outOfRange
  | some number => .ok (.number (if positive then number else negate number), cursor)

/-- The largest exponent that is read digit by digit. -/
def exponentLimit : Nat := 0x7FFFFFFF

/-- Reads the digits of an exponent; nothing when they leave the range, with the cursor behind the digit
that did. -/
def readExponentDigits : Nat → Nat → Cursor → Option Nat × Cursor
  | 0, value, cursor => (some value, cursor)
  | fuel + 1, value, cursor =>
    match cursor.rest.head?.bind byteDigit? with
    | none => (some value, cursor)
    | some digit =>
      if value * 10 + digit ≤ exponentLimit then
        readExponentDigits fuel (value * 10 + digit) cursor.skip
      else (none, cursor.skip)

/-- Reads an exponent behind its mark. -/
def readExponent (positive : Bool) (significand : Nat) (start : Int) (cursor : Cursor) :
    Read Found :=
  let sign := cursor.rest.head?
  let unsigned := if sign = some 0x2B ∨ sign = some 0x2D then cursor.skip else cursor
  match unsigned.rest with
  | [] => unsigned.fail .endInValue
  | b :: rest =>
    match byteDigit? b with
    | none => unsigned.skip.fail .invalidNumber
    | some digit =>
      match readExponentDigits rest.length digit unsigned.skip with
      | (some value, after) =>
        readScaled positive significand (if sign = some 0x2D then start - value else start + value)
          after
      | (none, after) =>
        if significand ≠ 0 ∧ sign ≠ some 0x2D then after.fail .outOfRange
        else .ok (.number (.finite (!positive) 0 Binary64.leastExponent), after.skipWhile isByteDigit)

/-- Reads on behind the digits of a number that has a fraction, an exponent, or too many digits. -/
def readBehindDigits (positive : Bool) (significand : Nat) (exponent : Int) (cursor : Cursor) :
    Read Found :=
  if cursor.rest.head? = some 0x65 ∨ cursor.rest.head? = some 0x45 then
    readExponent positive significand exponent cursor.skip
  else readScaled positive significand exponent cursor

/-- Reads a fraction behind its point. -/
def readFraction (positive : Bool) (significand : Nat) (start : Int) (cursor : Cursor) :
    Read Found :=
  let (value, taken, behind) := readSignificand cursor.rest.length significand cursor 0
  let overflow := (behind.rest.head?.bind byteDigit?).isSome
  if taken = 0 ∧ ¬overflow then
    behind.failNext (if behind.rest.isEmpty then .endInValue else .invalidNumber)
  else
    readBehindDigits positive value (start - taken)
      (if overflow then behind.skipWhile isByteDigit else behind)

/-- Reads on behind the digits of the whole part that fit into the significand. -/
def readBehindWhole (positive : Bool) (significand : Nat) (cursor : Cursor) : Read Found :=
  let more := (cursor.rest.takeWhile isByteDigit).length
  if more > 0 then
    let behind := cursor.skipWhile isByteDigit
    if behind.rest.head? = some 0x2E then readFraction positive significand more behind.skip
    else readBehindDigits positive significand more behind
  else if cursor.rest.head? = some 0x2E then readFraction positive significand 0 cursor.skip
  else if cursor.rest.head? = some 0x65 ∨ cursor.rest.head? = some 0x45 then
    readExponent positive significand 0 cursor.skip
  else if positive then .ok (.integer significand, cursor)
  else if significand = 0 ∨ significand > 0x8000000000000000 then
    .ok (.number (negate (Binary64.ofRatio false significand 1)), cursor)
  else .ok (.integer (-(significand : Int)), cursor)

/-- Reads a number behind its sign. -/
def readNumber (positive : Bool) (cursor : Cursor) : Read Found :=
  match cursor.rest with
  | [] => cursor.fail .endInValue
  | b :: rest =>
    match byteDigit? b with
    | none => cursor.skip.fail .invalidNumber
    | some digit =>
      if digit = 0 then
        if (rest.head?.bind byteDigit?).isSome then cursor.skip.failNext .invalidNumber
        else readBehindWhole positive 0 cursor.skip
      else
        let (significand, _, behind) := readSignificand rest.length digit cursor.skip 0
        readBehindWhole positive significand behind

/-- Reads the rest of a word. -/
def readWord (found : Found) : List UInt8 → Cursor → Read Found
  | [], cursor => .ok (found, cursor)
  | b :: word, cursor =>
    match cursor.rest with
    | [] => cursor.fail .endInValue
    | c :: _ => if c = b then readWord found word cursor.skip else cursor.skip.fail .expectedWord

/-- Reads a value far enough to name it. -/
def readFound (cursor : Cursor) : Read Found :=
  match cursor.rest with
  | [] => cursor.failNext .expectedValue
  | b :: _ =>
    if b = 0x6E then readWord .null [0x75, 0x6C, 0x6C] cursor.skip
    else if b = 0x74 then readWord (.truth true) [0x72, 0x75, 0x65] cursor.skip
    else if b = 0x66 then readWord (.truth false) [0x61, 0x6C, 0x73, 0x65] cursor.skip
    else if b = 0x2D then readNumber false cursor.skip
    else if (byteDigit? b).isSome then readNumber true cursor
    else if b = 0x22 then (readString cursor.skip).map fun read => (.text read.1, read.2)
    else if b = 0x5B then .ok (.sequence, cursor)
    else if b = 0x7B then .ok (.map, cursor)
    else cursor.failNext .expectedValue

/-- Refuses a value of the wrong kind. -/
def refuse {α : Type} (expected : String) (cursor : Cursor) : Except Error α :=
  match readFound cursor with
  | .error error => .error error
  | .ok (found, after) => after.fail (.wrongType found expected)

/-- Reads a text. -/
def readText (expected : String) (cursor : Cursor) : Read String :=
  match cursor.skipSpace.rest with
  | [] => cursor.skipSpace.failNext .endInValue
  | b :: _ =>
    if b = 0x22 then readString cursor.skipSpace.skip else refuse expected cursor.skipSpace

/-- Reads a key, its colon and its value, from the key's opening quote. -/
def readEntry (expected : String) (cursor : Cursor) :
    Except Error ((String × String) × Cursor) := do
  let (key, behindKey) ← readString cursor.skip
  let colon := behindKey.skipSpace
  match colon.rest with
  | [] => colon.failNext .endInObject
  | b :: _ =>
    if b = 0x3A then do
      let (value, after) ← readText expected colon.skip
      .ok ((key, value), after)
    else colon.failNext .expectedColon

/-- Reads entries up to the closing brace. Each takes a byte, so their number is bounded by that of the
bytes. -/
def readEntries (expected : String) : Nat → Bool → Cursor → Read (List (String × String))
  | 0, _, cursor => cursor.fail .endInObject
  | fuel + 1, first, cursor =>
    let here := cursor.skipSpace
    match here.rest with
    | [] => here.failNext .endInObject
    | b :: _ =>
      if b = 0x7D then .ok ([], here.skip)
      else if first then
        if b = 0x22 then more fuel here else here.failNext .keyNotString
      else if b = 0x2C then
        let next := here.skip.skipSpace
        match next.rest with
        | [] => next.failNext .endInValue
        | c :: _ =>
          if c = 0x22 then more fuel next
          else if c = 0x7D then next.failNext .trailingComma
          else next.failNext .keyNotString
      else here.failNext .expectedCommaOrEnd
where
  /-- Reads the entry at hand and those behind it. -/
  more (fuel : Nat) (here : Cursor) : Read (List (String × String)) :=
    match readEntry expected here with
    | .error error => .error error
    | .ok (entry, after) =>
      match readEntries expected fuel false after with
      | .error error => .error error
      | .ok (others, last) => .ok (entry :: others, last)

/-- Reads a whole text as one object with texts for values, each called `expected` in messages. -/
def readTextMap (expected : String) (bytes : List UInt8) :
    Except Error (List (String × String)) :=
  let start := (Cursor.mk 0 bytes).skipSpace
  match start.rest with
  | [] => start.failNext .endInValue
  | b :: rest =>
    if b = 0x7B then
      match readEntries expected (rest.length + 1) true start.skip with
      | .error error => .error error
      | .ok (entries, after) =>
        if after.skipSpace.rest.isEmpty then .ok entries
        else after.skipSpace.failNext .trailingCharacters
    else refuse "a map" start

end TestMeasures.Json
