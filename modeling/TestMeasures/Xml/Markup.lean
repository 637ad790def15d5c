/-!
# Markup

What stands between `<` and its closing `>`. Tags end at the first `>` outside quotes, comments at
`-->`, character data at `]]>`, instructions at `?>`, and document type declarations at the `>` that
balances the `<` before it.
-/

namespace TestMeasures.Xml

/-- The byte of an ASCII character. -/
abbrev byte (c : Char) : UInt8 := c.toUInt8

/-- The bytes of an ASCII text. -/
abbrev ascii (text : String) : List UInt8 := text.toList.map byte

/-- White space in markup: space, tab, line feed and carriage return. -/
def isSpace (b : UInt8) : Bool :=
  b == 0x20 || b == 0x09 || b == 0x0A || b == 0x0D

/-- A lower-case copy of an ASCII letter; other bytes stay. -/
def lowerByte (b : UInt8) : UInt8 :=
  if 0x41 ≤ b.toNat ∧ b.toNat ≤ 0x5A then b + 0x20 else b

/-- Why markup cannot be read at all. -/
inductive SyntaxFault where
  | unknownMarkup
  | unclosedInstruction
  | unclosedComment
  | unclosedDoctype
  | unclosedCharacterData
  | unclosedTag
deriving Repr, DecidableEq, Inhabited

/-- The message of a syntax fault. -/
def SyntaxFault.message : SyntaxFault → String
  | .unknownMarkup => "unknown or missed symbol in markup"
  | .unclosedInstruction =>
    "processing instruction or xml declaration not closed: `?>` not found before end of input"
  | .unclosedComment => "comment not closed: `-->` not found before end of input"
  | .unclosedDoctype => "DOCTYPE not closed: `>` not found before end of input"
  | .unclosedCharacterData => "CDATA not closed: `]]>` not found before end of input"
  | .unclosedTag => "tag not closed: `>` not found before end of input"

/-- One piece of markup. -/
inductive Markup where
  /-- `<content>` -/
  | opening (content : List UInt8)
  /-- `<content/>` -/
  | empty (content : List UInt8)
  /-- `</name>`, the name as it is compared with that of the start tag. -/
  | closing (name : List UInt8)
  /-- A comment, character data, an instruction or a document type declaration. -/
  | other
  /-- `<!DOCTYPE>` with nothing but white space after the keyword. -/
  | namelessDoctype
deriving Repr, DecidableEq, Inhabited

/-- The bytes up to the first `>` outside quotes, and the bytes after it. The first argument is the
quote that is open, if one is. -/
def spanTag : Option UInt8 → List UInt8 → Option (List UInt8 × List UInt8)
  | _, [] => none
  | none, b :: rest =>
    if b = byte '>' then some ([], rest)
    else
      (spanTag (if b = byte '"' ∨ b = byte '\'' then some b else none) rest).map fun found =>
        (b :: found.1, found.2)
  | some quote, b :: rest =>
    (spanTag (if b = quote then none else some quote) rest).map fun found =>
      (b :: found.1, found.2)

/-- The bytes up to the first `>` at which the bytes before it, last one first, satisfy a condition. -/
def spanClose (closes : List UInt8 → Bool) (before : List UInt8) :
    List UInt8 → Option (List UInt8 × List UInt8)
  | [] => none
  | b :: rest =>
    if b == byte '>' && closes before then some (before.reverse, rest)
    else spanClose closes (b :: before) rest

/-- The bytes up to the `>` that balances the brackets opened before it. -/
def spanBalanced : Nat → List UInt8 → Option (List UInt8 × List UInt8)
  | _, [] => none
  | depth, b :: rest =>
    if b = byte '>' ∧ depth = 0 then some ([], rest)
    else
      let inner :=
        if b = byte '<' then depth + 1 else if b = byte '>' then depth - 1 else depth
      (spanBalanced inner rest).map fun found => (b :: found.1, found.2)

/-- A comment may close after four bytes at the earliest, so that its two marks do not overlap. -/
def closesComment (before : List UInt8) : Bool :=
  before.length ≥ 4 && (ascii "--").isPrefixOf before

/-- Character data closes after two brackets. -/
def closesCharacterData (before : List UInt8) : Bool :=
  (ascii "]]").isPrefixOf before

/-- An instruction closes after a question mark. -/
def closesInstruction (before : List UInt8) : Bool :=
  before.head? == some (byte '?')

/-- Reads the markup after `<!`, given from the byte after the exclamation mark. -/
def scanDeclaration (bytes : List UInt8) : Except SyntaxFault (Markup × List UInt8) :=
  match bytes.head? with
  | none => .error .unknownMarkup
  | some b =>
    if b = byte '-' then
      match spanClose closesComment [] bytes with
      | some (content, rest) =>
        if (ascii "--").isPrefixOf content then .ok (.other, rest) else .error .unclosedComment
      | none => .error .unclosedComment
    else if b = byte '[' then
      match spanClose closesCharacterData [] bytes with
      | some (content, rest) =>
        if (ascii "[CDATA[").isPrefixOf content then .ok (.other, rest)
        else .error .unclosedCharacterData
      | none => .error .unclosedCharacterData
    else if b = byte 'D' ∨ b = byte 'd' then
      match spanBalanced 0 bytes with
      | some (content, rest) =>
        if (ascii "doctype").isPrefixOf (content.map lowerByte) then
          .ok (if (content.drop 7).all isSpace then .namelessDoctype else .other, rest)
        else .error .unclosedDoctype
      | none => .error .unclosedDoctype
    else .error .unknownMarkup

/-- Reads an instruction, given from its question mark. -/
def scanInstruction (bytes : List UInt8) : Except SyntaxFault (Markup × List UInt8) :=
  match spanClose closesInstruction [] bytes with
  | some (content, rest) =>
    if content.length > 1 then .ok (.other, rest) else .error .unclosedInstruction
  | none => .error .unclosedInstruction

/-- The name of an end tag: what stands before trailing white space. A name of nothing but white
space is kept. -/
def closingName (content : List UInt8) : List UInt8 :=
  if content.all isSpace then content else (content.reverse.dropWhile isSpace).reverse

/-- The start tag or empty-element tag with the given content. -/
def Markup.ofTagContent (content : List UInt8) : Markup :=
  if content.getLast? = some (byte '/') then .empty content.dropLast else .opening content

/-- Reads one piece of markup, given from the byte after its `<`, and the bytes after it. -/
def Markup.scan (bytes : List UInt8) : Except SyntaxFault (Markup × List UInt8) :=
  match bytes with
  | [] => .error .unclosedTag
  | b :: rest =>
    if b = byte '!' then scanDeclaration rest
    else if b = byte '?' then scanInstruction bytes
    else if b = byte '/' then
      match spanTag none rest with
      | some (content, after) => .ok (.closing (closingName content), after)
      | none => .error .unclosedTag
    else
      match spanTag none bytes with
      | some (content, after) => .ok (.ofTagContent content, after)
      | none => .error .unclosedTag

end TestMeasures.Xml
