/-!
# JSON documents

Documents of texts, natural numbers, lists and records, and their written form: every item and every
field on a line of its own, two blanks deeper than what holds it.
-/

namespace TestMeasures.Json

/-- A JSON document. -/
inductive Document where
  | text (value : String)
  | number (value : Nat)
  | list (items : List Document)
  | record (fields : List (String × Document))

/-- A character as it stands between quotes: quotes, backslashes and control characters are escaped. -/
def writtenChar (c : Char) : List Char :=
  if c = '"' ∨ c = '\\' then ['\\', c]
  else if c = '\x08' then ['\\', 'b']
  else if c = '\x0c' then ['\\', 'f']
  else if c = '\n' then ['\\', 'n']
  else if c = '\r' then ['\\', 'r']
  else if c = '\t' then ['\\', 't']
  else if c.toNat < 0x20 then
    ['\\', 'u', '0', '0', Nat.digitChar (c.toNat / 16), Nat.digitChar (c.toNat % 16)]
  else [c]

/-- A text in quotes. -/
def writtenText (text : String) : String :=
  "\"" ++ String.ofList (text.toList.flatMap writtenChar) ++ "\""

/-- A new line at a depth. -/
def lineBreak (depth : Nat) : String :=
  "\n" ++ String.ofList (List.replicate (2 * depth) ' ')

/-- Parts between brackets, each on a line of its own; without parts the brackets touch. Parts and the
result are given as the pieces that they are written in. -/
def bracketed (opening closing : String) (depth : Nat) (parts : List (List String)) : List String :=
  if parts.isEmpty then [opening, closing]
  else
    opening :: [","].intercalate (parts.map fun part => lineBreak (depth + 1) :: part) ++
      [lineBreak depth, closing]

namespace Document

mutual

/-- The pieces that a document which stands at a depth is written in. -/
def piecesAt (depth : Nat) : Document → List String
  | .text value => [writtenText value]
  | .number value => [String.ofList (Nat.toDigits 10 value)]
  | .list items => bracketed "[" "]" depth (itemPieces (depth + 1) items)
  | .record fields => bracketed "\x7b" "\x7d" depth (fieldPieces (depth + 1) fields)

/-- The pieces of every item. -/
def itemPieces (depth : Nat) : List Document → List (List String)
  | [] => []
  | item :: rest => piecesAt depth item :: itemPieces depth rest

/-- The pieces of every field. -/
def fieldPieces (depth : Nat) : List (String × Document) → List (List String)
  | [] => []
  | (name, value) :: rest =>
    (writtenText name :: ": " :: piecesAt depth value) :: fieldPieces depth rest

end

/-- The pieces that a document is written in, one after the other. -/
def pieces (document : Document) : List String :=
  document.piecesAt 0

end Document

end TestMeasures.Json
