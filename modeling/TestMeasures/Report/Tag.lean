import TestMeasures.Decimal.Numeral
import TestMeasures.Text.Blank
import TestMeasures.Xml.Attribute

/-!
# Tags and their typed attributes

A tag is a start tag or empty-element tag of a report, with its place in the document. Its attributes
are read as text, as a truth value or as a finite number.
-/

namespace TestMeasures

/-- A tag as the reader answers it: its local name, its content between the brackets, the byte offset of
its `<`, and the number of elements open around it. -/
structure Tag where
  name : String
  content : List UInt8
  position : Nat
  depth : Nat
deriving Repr, DecidableEq, Inhabited

/-- Why an attribute of a tag cannot be used. -/
inductive TagFault where
  | missing (tag attributeName : String)
  | malformed (tag attributeName value reason : String)
deriving Repr, DecidableEq, Inhabited

namespace TagFault

/-- The tag that a fault is about. -/
def tag : TagFault → String
  | .missing tag _ => tag
  | .malformed tag _ _ _ => tag

/-- The attribute that a fault is about. -/
def attributeName : TagFault → String
  | .missing _ name => name
  | .malformed _ name _ _ => name

/-- The message of a fault. -/
def message : TagFault → String
  | .missing tag name =>
    "missing required attribute `" ++ name ++ "` on <" ++ tag ++ ">"
  | .malformed tag name value reason =>
    "attribute `" ++ name ++ "` on <" ++ tag ++ "> has invalid value \"" ++ value ++ "\": " ++ reason

end TagFault

namespace Tag

/-- The part of a qualified name behind its first colon, or all of it. -/
def localName (name : List UInt8) : List UInt8 :=
  match name.dropWhile (· != Xml.byte ':') with
  | [] => name
  | _ :: rest => rest

/-- The tag with the given content. -/
def ofContent (content : List UInt8) (position depth : Nat) : Tag :=
  ⟨Text.Utf8.decodeLossy (localName (Xml.tagName content)), content, position, depth⟩

/-- The fault of an attribute whose value is refused. -/
def malformed (tag : Tag) (name value reason : String) : TagFault :=
  .malformed tag.name name value reason

/-- The value of an attribute that may be absent. -/
def optional (tag : Tag) (name : String) : Except TagFault (Option String) :=
  match Xml.findAttribute tag.content (Text.Utf8.encode name) with
  | .error fault => .error (tag.malformed name "" fault.message)
  | .ok none => .ok none
  | .ok (some raw) =>
    match Xml.attributeText raw with
    | .ok value => .ok (some value)
    | .error fault => .error (tag.malformed name (Text.Utf8.decodeLossy raw) fault.message)

/-- The value of an attribute that must be present. -/
def required (tag : Tag) (name : String) : Except TagFault String :=
  match tag.optional name with
  | .error fault => .error fault
  | .ok none => .error (.missing tag.name name)
  | .ok (some value) => .ok value

/-- A comma in a number is read as a point. -/
def pointed (text : String) : String :=
  String.ofList (text.toList.map fun c => if c = ',' then '.' else c)

/-- The value of an attribute that is a finite number, with a point or a comma before its fraction. -/
def number (tag : Tag) (name : String) : Except TagFault (Option Binary64) :=
  match tag.optional name with
  | .error fault => .error fault
  | .ok none => .ok none
  | .ok (some value) =>
    match Binary64.read (pointed (Text.trim value)) with
    | .error fault => .error (tag.malformed name value fault.message)
    | .ok number =>
      if number.isFinite then .ok (some number)
      else .error (tag.malformed name value "not a finite number")

/-- The value of an attribute that is true or false, in any case. -/
def flag (tag : Tag) (name : String) : Except TagFault (Option Bool) :=
  match tag.optional name with
  | .error fault => .error fault
  | .ok none => .ok none
  | .ok (some value) =>
    if Text.sameIgnoringCase (Text.trim value) "true" then .ok (some true)
    else if Text.sameIgnoringCase (Text.trim value) "false" then .ok (some false)
    else .error (tag.malformed name value "expected `true` or `false`")

end Tag

end TestMeasures
