import TestMeasures.Text.Utf8
import TestMeasures.Xml.Markup

/-!
# From bytes to markup events

The parser walks over the bytes, keeps the names of the elements that are open, and checks end tags
against them. An ill-formed end tag or declaration is reported and reading can go on behind it; after
a syntax fault only the end of the input is left.
-/

namespace TestMeasures.Xml

/-- A document that can be split into markup but does not fit together. -/
inductive IllFormed where
  | mismatchedEnd (expected found : List UInt8)
  | unmatchedEnd (found : List UInt8)
  | namelessDoctype
deriving Repr, DecidableEq, Inhabited

/-- A name for a message: its text, or nothing when it is not UTF-8. -/
def nameText (name : List UInt8) : String :=
  match Text.Utf8.decode name with
  | .ok text => text
  | .error _ => ""

/-- The message of an ill-formed document. -/
def IllFormed.message : IllFormed → String
  | .mismatchedEnd expected found =>
    "expected `</" ++ nameText expected ++ ">`, but `</" ++ nameText found ++ ">` was found"
  | .unmatchedEnd found =>
    "close tag `</" ++ nameText found ++ ">` does not match any open tag"
  | .namelessDoctype =>
    "`<!DOCTYPE>` declaration does not contain a name of a document type"

/-- What is wrong with the XML of a document. -/
inductive XmlFault where
  | notSyntax (fault : SyntaxFault)
  | illFormed (fault : IllFormed)
deriving Repr, DecidableEq, Inhabited

/-- The messages of a fault, outermost first. -/
def XmlFault.chain : XmlFault → List String
  | .notSyntax fault => ["syntax error: " ++ fault.message, fault.message]
  | .illFormed fault => ["ill-formed document: " ++ fault.message, fault.message]

/-- The part of a tag's content before the first white space. -/
def tagName (content : List UInt8) : List UInt8 :=
  content.takeWhile (!isSpace ·)

/-- The parser between two pieces of markup: the bytes to come, how many went before, and the names
of the open elements, innermost first. -/
structure Parser where
  rest : List UInt8
  offset : Nat
  unclosed : List (List UInt8)
deriving Repr, DecidableEq, Inhabited

/-- What the parser comes across. -/
inductive Markup.Event where
  | opened (position : Nat) (content : List UInt8)
  | empty (position : Nat) (content : List UInt8)
  | closed
  | other
  | fault (position : Nat) (fault : XmlFault)
  | finished
deriving Repr, DecidableEq, Inhabited

namespace Parser

/-- The parser at the start of a document. A byte order mark is dropped and not counted. -/
def ofBytes (bytes : List UInt8) : Parser :=
  ⟨Text.Utf8.dropMark bytes, 0, []⟩

/-- A parser with nothing left to read. -/
def exhausted (parser : Parser) : Parser :=
  { parser with rest := [] }

/-- What one piece of markup at a position amounts to, where the parser has moved behind it. -/
def meet (parser : Parser) (position : Nat) : Markup → Markup.Event × Parser
  | .opening content =>
    (.opened position content, { parser with unclosed := tagName content :: parser.unclosed })
  | .empty content => (.empty position content, parser)
  | .other => (.other, parser)
  | .namelessDoctype => (.fault (parser.offset - 1) (.illFormed .namelessDoctype), parser)
  | .closing name =>
    match parser.unclosed with
    | [] => (.fault position (.illFormed (.unmatchedEnd name)), parser)
    | expected :: outer =>
      if name = expected then (.closed, { parser with unclosed := outer })
      else
        (.fault position (.illFormed (.mismatchedEnd expected name)), { parser with unclosed := outer })

/-- Reads over text to the next piece of markup and reads that. -/
def next (parser : Parser) : Markup.Event × Parser :=
  let text := parser.rest.takeWhile (· != byte '<')
  match parser.rest.drop text.length with
  | [] => (.finished, parser.exhausted)
  | _ :: bytes =>
    let position := parser.offset + text.length
    match Markup.scan bytes with
    | .error fault => (.fault position (.notSyntax fault), parser.exhausted)
    | .ok (markup, rest) =>
      let behind := { parser with
        rest := rest, offset := position + 1 + (bytes.length - rest.length) }
      behind.meet position markup

end Parser

end TestMeasures.Xml
