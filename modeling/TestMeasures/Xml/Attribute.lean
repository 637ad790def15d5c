import TestMeasures.Xml.Entity
import TestMeasures.Xml.Parser

/-!
# Attributes of a tag

The attributes stand in a tag's content behind its name. They are read from left to right until the
wanted one is found, so a fault behind it goes unnoticed and one before it does not.
-/

namespace TestMeasures.Xml

/-- Why the next attribute cannot be read; positions count from the first byte of the tag's name. -/
inductive AttributeFault where
  | noEquals (position : Nat)
  | noValue (position : Nat)
  | notQuoted (position : Nat)
  | noClosingQuote (position : Nat) (quote : Char)
deriving Repr, DecidableEq, Inhabited

/-- The message of an attribute that cannot be read. -/
def AttributeFault.message : AttributeFault → String
  | .noEquals position =>
    "position " ++ toString position ++ ": attribute key must be directly followed by `=` or space"
  | .noValue position =>
    "position " ++ toString position ++ ": `=` must be followed by an attribute value"
  | .notQuoted position =>
    "position " ++ toString position ++ ": attribute value must be enclosed in `\"` or `'`"
  | .noClosingQuote position quote =>
    "position " ++ toString position ++ ": missing closing quote `" ++ String.singleton quote ++
      "` in attribute value"

/-- A byte sequence together with its position in a tag. -/
structure Rest where
  position : Nat
  bytes : List UInt8
deriving Repr, DecidableEq, Inhabited

namespace Rest

/-- What is left behind the bytes that satisfy a condition. -/
def skip (p : UInt8 → Bool) (rest : Rest) : Rest :=
  let skipped := rest.bytes.takeWhile p
  ⟨rest.position + skipped.length, rest.bytes.drop skipped.length⟩

/-- What is left behind the first byte. -/
def tail (rest : Rest) : Rest :=
  ⟨rest.position + 1, rest.bytes.tail⟩

end Rest

/-- One attribute as it is written. -/
structure RawAttribute where
  key : List UInt8
  value : List UInt8
deriving Repr, DecidableEq, Inhabited

/-- Reads the value of an attribute behind its `=`. -/
def scanValue (key : List UInt8) (rest : Rest) :
    Except AttributeFault (RawAttribute × Rest) :=
  let start := rest.skip isSpace
  match start.bytes with
  | [] => .error (.noValue start.position)
  | quote :: bytes =>
    if quote = byte '"' ∨ quote = byte '\'' then
      let value := bytes.takeWhile (· != quote)
      match bytes.drop value.length with
      | [] =>
        .error (.noClosingQuote (start.position + 1 + value.length) (Char.ofNat quote.toNat))
      | _ :: after => .ok (⟨key, value⟩, ⟨start.position + 1 + value.length + 1, after⟩)
    else .error (.notQuoted start.position)

/-- Reads the next attribute and what is left behind it, unless nothing but white space is left. The
first byte of a key is part of it whatever it is. -/
def scanAttribute (rest : Rest) : Option (Except AttributeFault (RawAttribute × Rest)) :=
  let start := rest.skip isSpace
  match start.bytes with
  | [] => none
  | first :: _ =>
    let behindKey := start.tail.skip fun b => b != byte '=' && !isSpace b
    let key := first :: start.bytes.tail.take (behindKey.position - start.position - 1)
    let equals := behindKey.skip isSpace
    match equals.bytes with
    | [] => some (.error (.noEquals equals.position))
    | b :: _ =>
      if b = byte '=' then some (scanValue key equals.tail)
      else some (.error (.noEquals equals.position))

/-- Looks for an attribute; each attribute takes at least one byte, so their number bounds the search. -/
def findFrom (name : List UInt8) : Nat → Rest → Except AttributeFault (Option (List UInt8))
  | 0, _ => .ok none
  | fuel + 1, rest =>
    match scanAttribute rest with
    | none => .ok none
    | some (.error fault) => .error fault
    | some (.ok (found, after)) =>
      if found.key = name then .ok (some found.value) else findFrom name fuel after

/-- The raw value of the first attribute of a name in a tag's content, if there is one. -/
def findAttribute (content name : List UInt8) : Except AttributeFault (Option (List UInt8)) :=
  let length := (tagName content).length
  findFrom name content.length ⟨length, content.drop length⟩

/-- Why the value of an attribute is not a text. -/
inductive ValueFault where
  | notUtf8 (fault : Text.Utf8.Fault)
  | entity (fault : EntityFault)
deriving Repr, DecidableEq, Inhabited

/-- The message of a value that is not a text. -/
def ValueFault.message : ValueFault → String
  | .notUtf8 fault => "cannot decode input using UTF-8: " ++ fault.message
  | .entity fault => fault.message

/-- The text of a raw attribute value. -/
def attributeText (value : List UInt8) : Except ValueFault String :=
  match Text.Utf8.decode value with
  | .error fault => .error (.notUtf8 fault)
  | .ok text => (unescape text).mapError .entity

end TestMeasures.Xml
