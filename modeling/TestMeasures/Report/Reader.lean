import TestMeasures.Report.Fault
import TestMeasures.Text.Quoted
import TestMeasures.Xml.Parser

/-!
# Reading a report tag by tag

The reader answers the start tags and empty-element tags of a document in order and counts the elements
that are open. The count goes by start tags and end tags that fit; the parser keeps its own list of
names, and the two differ after a mismatched end tag.
-/

namespace TestMeasures

open Xml (Parser Markup)

/-- A reader between two tags. -/
structure Reader where
  parser : Parser
  openTags : Nat
  current : Option Tag
deriving Repr, DecidableEq, Inhabited

namespace Reader

/-- The reader at the start of a document. -/
def ofBytes (bytes : List UInt8) : Reader :=
  ⟨Parser.ofBytes bytes, 0, none⟩

/-- Behind one markup event: the answer of the reader, if the event settles one, and the reader. -/
def meet (reader : Reader) (parser : Parser) :
    Markup.Event → Option (Except ReportFault (Option Tag)) × Reader
  | .opened position content =>
    let tag := Tag.ofContent content position reader.openTags
    (some (.ok (some tag)), ⟨parser, reader.openTags + 1, some tag⟩)
  | .empty position content =>
    let tag := Tag.ofContent content position reader.openTags
    (some (.ok (some tag)), ⟨parser, reader.openTags, some tag⟩)
  | .closed => (none, { reader with parser := parser, openTags := reader.openTags - 1 })
  | .other => (none, { reader with parser := parser })
  | .fault position fault => (some (.error (.xml position fault)), { reader with parser := parser })
  | .finished =>
    (some (if reader.openTags > 0 then .error (.unclosed reader.openTags) else .ok none),
      ⟨parser, reader.openTags, none⟩)

/-- Reads on until an event settles the answer. Each event but the end takes a byte, so the number of
bytes bounds the search. -/
def nextFrom : Nat → Reader → Except ReportFault (Option Tag) × Reader
  | 0, reader => (.ok none, reader)
  | fuel + 1, reader =>
    let (event, parser) := reader.parser.next
    match reader.meet parser event with
    | (some answer, after) => (answer, after)
    | (none, after) => nextFrom fuel after

/-- The next tag, nothing at the end of the document, or what is wrong; and the reader behind it. -/
def next (reader : Reader) : Except ReportFault (Option Tag) × Reader :=
  nextFrom (reader.parser.rest.length + 1) reader

/-- The name of the current tag, empty when there is none. -/
def tagName (reader : Reader) : String :=
  (reader.current.map Tag.name).getD ""

/-- The depth of the current tag, zero when there is none. -/
def depth (reader : Reader) : Nat :=
  (reader.current.map Tag.depth).getD 0

/-- The byte offset of the current tag, zero when there is none. -/
def position (reader : Reader) : Nat :=
  (reader.current.map Tag.position).getD 0

/-- The tag that attributes are read from: the current one, or one without a name and content. -/
def tag (reader : Reader) : Tag :=
  reader.current.getD ⟨"", [], 0, 0⟩

/-- The state of a reader of the file at a path, for diagnostics. -/
def describe (reader : Reader) (path : Path) : String :=
  "AttributeReader \x7b path: " ++ Text.quoted path.text ++
    ", tag_name: " ++ Text.quoted reader.tagName ++
    ", position: " ++ toString reader.position ++
    ", open_tags: " ++ toString reader.openTags ++ " \x7d"

end Reader

/-- A whole document as a list of tags, up to its end or to the first fault. -/
structure Reading where
  tags : List Tag
  ending : Except ReportFault Unit
deriving Repr, Inhabited

namespace Reading

/-- Reads tags until the end or a fault. Each tag takes a byte, so the number of bytes bounds them. -/
def collect : Nat → Reader → Reading
  | 0, _ => ⟨[], .ok ()⟩
  | fuel + 1, reader =>
    match reader.next with
    | (.error fault, _) => ⟨[], .error fault⟩
    | (.ok none, _) => ⟨[], .ok ()⟩
    | (.ok (some tag), after) =>
      let others := collect fuel after
      { others with tags := tag :: others.tags }

/-- The reading of a document. -/
def ofBytes (bytes : List UInt8) : Reading :=
  collect (bytes.length + 1) (Reader.ofBytes bytes)

end Reading

end TestMeasures
