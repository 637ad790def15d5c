import TestMeasures.Text.Utf8

/-!
# Entities in attribute values

A reference runs from `&` to `;`. The five named entities and character references by number are
known; a reference by number must name a character other than NUL.
-/

namespace TestMeasures.Xml

/-- What is wrong with a decimal or hexadecimal number. -/
inductive NumberFault where
  | empty
  | invalidDigit
  | tooLarge
deriving Repr, DecidableEq, Inhabited

/-- The message of a number that cannot be read. -/
def NumberFault.message : NumberFault → String
  | .empty => "cannot parse integer from empty string"
  | .invalidDigit => "invalid digit found in string"
  | .tooLarge => "number too large to fit in target type"

/-- Why a character reference names no character. -/
inductive ReferenceFault where
  | signed
  | number (fault : NumberFault)
  | noCharacter (code : Nat)
  | nul
deriving Repr, DecidableEq, Inhabited

/-- The message of a faulty character reference. -/
def ReferenceFault.message : ReferenceFault → String
  | .signed => "unexpected number sign"
  | .number fault => fault.message
  | .noCharacter code => "`" ++ toString code ++ "` is not a valid codepoint"
  | .nul => "0x0 character is not permitted in XML"

/-- Why references in a value cannot be replaced; ranges are in bytes of the value. -/
inductive EntityFault where
  | unknown (start stop : Nat) (name : String)
  | unterminated (start stop : Nat)
  | reference (fault : ReferenceFault)
deriving Repr, DecidableEq, Inhabited

/-- The message of a faulty reference. -/
def EntityFault.message : EntityFault → String
  | .unknown start stop name =>
    "at " ++ toString start ++ ".." ++ toString stop ++ ": unrecognized entity `" ++ name ++ "`"
  | .unterminated start stop =>
    "Error while escaping character at range " ++ toString start ++ ".." ++ toString stop ++
      ": Cannot find ';' after '&'"
  | .reference fault => "invalid character reference: " ++ fault.message

/-- The value of a digit in a base of at most sixteen. -/
def digitValue? (base : Nat) (c : Char) : Option Nat :=
  let n := c.toNat
  let value :=
    if 0x30 ≤ n ∧ n ≤ 0x39 then some (n - 0x30)
    else if 0x41 ≤ n ∧ n ≤ 0x46 then some (n - 0x37)
    else if 0x61 ≤ n ∧ n ≤ 0x66 then some (n - 0x57)
    else none
  value.filter (· < base)

/-- Reads digits behind a value already read. The first digit that is none, or that takes the value
out of thirty-two bits, decides the fault. -/
def readDigits (base value : Nat) : List Char → Except NumberFault Nat
  | [] => .ok value
  | c :: rest =>
    match digitValue? base c with
    | none => .error .invalidDigit
    | some digit =>
      if value * base + digit < 0x100000000 then readDigits base (value * base + digit) rest
      else .error .tooLarge

/-- Reads a number of at most thirty-two bits, without a sign. -/
def readNumber (base : Nat) (digits : List Char) : Except ReferenceFault Nat :=
  match digits with
  | [] => .error (.number .empty)
  | c :: _ =>
    if c = '+' ∨ c = '-' then .error .signed
    else (readDigits base 0 digits).mapError .number

/-- The character of a reference by number, given what follows `&#`. -/
def readReference (name : List Char) : Except ReferenceFault Char := do
  let code ← match name with
    | 'x' :: digits => readNumber 16 digits
    | digits => readNumber 10 digits
  if code = 0 then .error .nul
  else if h : code.isValidChar then .ok (Char.ofNatAux code h)
  else .error (.noCharacter code)

/-- The character of a named entity. -/
def namedEntity? (name : List Char) : Option Char :=
  match String.ofList name with
  | "lt" => some '<'
  | "gt" => some '>'
  | "amp" => some '&'
  | "apos" => some '\''
  | "quot" => some '"'
  | _ => none

/-- The number of bytes that characters take. -/
def byteLength (chars : List Char) : Nat :=
  chars.foldl (fun length c => length + c.utf8Size) 0

/-- The character of one reference, given what stands between `&` and `;` and where `&` stands. -/
def resolveEntity (start : Nat) (name : List Char) : Except EntityFault Char :=
  match name with
  | '#' :: number => (readReference number).mapError .reference
  | _ =>
    match namedEntity? name with
    | some c => .ok c
    | none => .error (.unknown (start + 1) (start + 1 + byteLength name) (String.ofList name))

/-- The characters between `&` and `;` read so far, last one first, and where their `&` stands. -/
structure PendingEntity where
  start : Nat
  name : List Char

/-- Replaces the references in characters that start at a byte index of a value of known size. -/
def unescapeChars (size index : Nat) :
    Option PendingEntity → List Char → Except EntityFault (List Char)
  | none, [] => .ok []
  | some pending, [] => .error (.unterminated pending.start size)
  | none, c :: rest =>
    if c = '&' then unescapeChars size (index + 1) (some ⟨index, []⟩) rest
    else (unescapeChars size (index + c.utf8Size) none rest).map (c :: ·)
  | some pending, c :: rest =>
    if c = '&' then .error (.unterminated pending.start size)
    else if c = ';' then do
      let resolved ← resolveEntity pending.start pending.name.reverse
      let others ← unescapeChars size (index + 1) none rest
      pure (resolved :: others)
    else
      unescapeChars size (index + c.utf8Size) (some ⟨pending.start, c :: pending.name⟩) rest

/-- The value with every reference replaced by its character. -/
def unescape (value : String) : Except EntityFault String :=
  (unescapeChars (byteLength value.toList) 0 none value.toList).map String.ofList

end TestMeasures.Xml
