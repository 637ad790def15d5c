import TestMeasures.Toml.Quoted

/-!
# TOML documents

A document is a list of lines: table headers, headers of further tables in a list, and keys with values.
Each table may be defined once, by its header or by dotted keys but not by both; tables on the way to
another come into being and may be defined later.
-/

namespace TestMeasures.Toml

/-- How a table came into being. -/
structure Origin where
  /-- It stands on the way to another table and may still get a header of its own. -/
  implicit : Bool
  /-- It was made by a dotted key. -/
  dotted : Bool
deriving Repr, DecidableEq, Inhabited

/-- A part of a document being read. -/
inductive Part where
  /-- A value that nothing can be added to. -/
  | closed (value : Value)
  | table (origin : Origin) (entries : List (String × Part))
  /-- The tables of a list, the newest first. -/
  | tables (elements : List (List (String × Part)))
deriving Inhabited

/-- The entries of a table being read. -/
abbrev Entries := List (String × Part)

/-- The part under a key. -/
def lookup (key : String) (entries : Entries) : Option Part :=
  (entries.find? fun entry => entry.1 == key).map Prod.snd

/-- Puts a part under a key, at the end if the key is new. -/
def put (key : String) (part : Part) : Entries → Entries
  | [] => [(key, part)]
  | (k, p) :: rest => if k = key then (k, part) :: rest else (k, p) :: put key part rest

/-- Changes the table that keys lead to, making tables where there are none. A dotted key goes through no
table that has a header, nor through lists. -/
def alter (dotted : Bool) (change : Origin → Entries → Option (Origin × Entries)) :
    List String → Origin → Entries → Option (Origin × Entries)
  | [], origin, entries => change origin entries
  | key :: keys, origin, entries =>
    match lookup key entries with
    | none => do
      let (o, es) ← alter dotted change keys ⟨true, dotted⟩ []
      some (origin, put key (.table o es) entries)
    | some (.table inner es) =>
      if dotted && !inner.implicit then none
      else do
        let (o, es) ← alter dotted change keys inner es
        some (origin, put key (.table o es) entries)
    | some (.tables (newest :: older)) =>
      if dotted then none
      else do
        let (_, es) ← alter dotted change keys ⟨false, false⟩ newest
        some (origin, put key (.tables (es :: older)) entries)
    | some _ => none

/-- Splits the last key off. -/
def splitLast? (keys : List String) : Option (List String × String) :=
  keys.getLast?.map fun last => (keys.dropLast, last)

/-- Defines the table of a header. -/
def openTable (key : String) (origin : Origin) (entries : Entries) : Option (Origin × Entries) :=
  match lookup key entries with
  | none => some (origin, put key (.table ⟨false, false⟩ []) entries)
  | some (.table inner es) =>
    if inner.implicit && !inner.dotted then
      some (origin, put key (.table ⟨false, false⟩ es) entries)
    else none
  | some _ => none

/-- Adds a table to the list of a header. -/
def openElement (key : String) (origin : Origin) (entries : Entries) : Option (Origin × Entries) :=
  match lookup key entries with
  | none => some (origin, put key (.tables [[]]) entries)
  | some (.tables elements) => some (origin, put key (.tables ([] :: elements)) entries)
  | some _ => none

/-- Adds a value under a new key. A dotted key adds to tables made by dotted keys only. -/
def addValue (isDotted : Bool) (key : String) (value : Value) (origin : Origin) (entries : Entries) :
    Option (Origin × Entries) :=
  if origin.dotted != isDotted then none
  else
    match lookup key entries with
    | none => some (origin, put key (.closed value) entries)
    | some _ => none

/-- Adds the value of a key, dotted or not, to a table. -/
def addKey (keys : List String) (value : Value) (origin : Origin) (entries : Entries) :
    Option (Origin × Entries) := do
  let (path, key) ← splitLast? keys
  alter true (addValue (!path.isEmpty) key value) path origin entries

mutual

/-- The value of a part. -/
def Part.value : Part → Value
  | .closed value => value
  | .table _ entries => .table (entryValues entries)
  | .tables elements => .list (elementValues elements).reverse

/-- The values of entries. -/
def entryValues : Entries → List (String × Value)
  | [] => []
  | (key, part) :: rest => (key, part.value) :: entryValues rest

/-- The values of the tables of a list. -/
def elementValues : List Entries → List Value
  | [] => []
  | entries :: rest => .table (entryValues entries) :: elementValues rest

end

/-! ## Reading -/

/-- What is left behind a comment, if one begins here: the line break or nothing. -/
def dropComment? (chars : List Char) : Option (List Char) :=
  match chars with
  | '#' :: rest =>
    let behind := rest.dropWhile isPlain
    if behind.isEmpty ∨ (lineBreak? behind).isSome then some behind else none
  | other => some other

/-- What is left behind the end of a line: blanks, a comment, and a line break unless the document ends. -/
def lineEnd? (chars : List Char) : Option (List Char) := do
  let behind ← dropComment? (dropBlanks chars)
  if behind.isEmpty then some [] else lineBreak? behind

/-- What is left behind blanks, comments and line breaks. -/
def dropVoid? : Nat → List Char → Option (List Char)
  | 0, chars => some chars
  | fuel + 1, chars => do
    let behind ← dropComment? (dropBlanks chars)
    match lineBreak? behind with
    | some rest => dropVoid? fuel rest
    | none => some behind

/-- Whether a character may stand in a key without quotes. -/
def isBareKey (c : Char) : Bool :=
  c.isAlphanum || c == '_' || c == '-'

/-- Reads one key. -/
def simpleKey? (chars : List Char) : Option (String × List Char) :=
  match chars with
  | '"' :: rest =>
    (lineText? '"' (rest.length + 1) rest).map fun read => (String.ofList read.1, read.2)
  | '\'' :: rest =>
    (lineText? '\'' (rest.length + 1) rest).map fun read => (String.ofList read.1, read.2)
  | _ =>
    let key := chars.takeWhile isBareKey
    if key.isEmpty then none else some (String.ofList key, chars.drop key.length)

/-- Reads keys between points; blanks may stand around these. -/
def dottedKey? : Nat → List Char → Option (List String × List Char)
  | 0, _ => none
  | fuel + 1, chars => do
    let (key, rest) ← simpleKey? chars
    match dropBlanks rest with
    | '.' :: more => do
      let (keys, last) ← dottedKey? fuel (dropBlanks more)
      some (key :: keys, last)
    | behind => some ([key], behind)

/-- Reads keys up to the end of the document at most. -/
def keys? (chars : List Char) : Option (List String × List Char) :=
  dottedKey? chars.length chars

/-- Whether a character may stand in a value without quotes and brackets. -/
def isAtom (c : Char) : Bool :=
  c.isAlphanum || c == '_' || c == '-' || c == '+' || c == '.' || c == ':'

/-- Reads a value without quotes and brackets. A time may stand behind a date and one space. -/
def atom? (chars : List Char) : Option (Value × List Char) :=
  let first := chars.takeWhile isAtom
  let rest := chars.drop first.length
  let withTime :=
    match rest with
    | ' ' :: c :: more =>
      if (date? first).isSome ∧ isDigit c then
        let time := (c :: more).takeWhile isAtom
        some (first ++ ' ' :: time, (c :: more).drop time.length)
      else none
    | _ => none
  let (text, behind) := withTime.getD (first, rest)
  (scalar? text).map fun value => (value, behind)

/-- How deep lists and tables in values may nest. -/
def depthLimit : Nat := 80

/-- Reads the items of a list behind its opening bracket, or behind a comma. -/
def items? (item? : List Char → Option (Value × List Char)) :
    Nat → List Char → Option (List Value × List Char)
  | 0, _ => none
  | fuel + 1, chars => do
    match ← dropVoid? chars.length chars with
    | ']' :: rest => some ([], rest)
    | here => do
      let (value, rest) ← item? here
      match ← dropVoid? rest.length rest with
      | ',' :: more => do
        let (values, last) ← items? item? fuel more
        some (value :: values, last)
      | ']' :: last => some ([value], last)
      | _ => none

/-- Reads the entries of a table in braces behind its opening brace, or behind a comma. -/
def members? (item? : List Char → Option (Value × List Char)) :
    Nat → Origin × Entries → List Char → Option (Entries × List Char)
  | 0, _, _ => none
  | fuel + 1, table, chars => do
    match ← dropVoid? chars.length chars with
    | '\x7d' :: rest => some (table.2, rest)
    | here => do
      let (keys, rest) ← keys? here
      match rest with
      | '=' :: behind => do
        let (value, rest) ← item? (dropBlanks behind)
        let grown ← addKey keys value table.1 table.2
        match ← dropVoid? rest.length rest with
        | ',' :: more => members? item? fuel grown more
        | '\x7d' :: last => some (grown.2, last)
        | _ => none
      | _ => none

/-- Reads a value whose lists and tables nest at most so deep. -/
def value? : Nat → List Char → Option (Value × List Char)
  | 0, _ => none
  | depth + 1, chars =>
    match chars with
    | '"' :: rest => (quotedText? '"' rest).map fun read => (.text read.1, read.2)
    | '\'' :: rest => (quotedText? '\'' rest).map fun read => (.text read.1, read.2)
    | '[' :: rest =>
      (items? (value? depth) (rest.length + 1) rest).map fun read => (.list read.1, read.2)
    | '\x7b' :: rest =>
      (members? (value? depth) (rest.length + 1) (⟨false, false⟩, []) rest).map fun read =>
        (.table (entryValues read.1), read.2)
    | _ => atom? chars

/-- A document being read: the keys of the table at hand, and what has been read. -/
structure Draft where
  header : List String
  entries : Entries

/-- Puts a change into effect. -/
def Draft.apply (draft : Draft) (change : Option (Origin × Entries)) : Option Draft :=
  change.map fun changed => { draft with entries := changed.2 }

/-- Reads one line that is not empty, and the rest behind it. -/
def line? (draft : Draft) (chars : List Char) : Option (Draft × List Char) :=
  match chars with
  | '[' :: '[' :: rest => do
    let (keys, rest) ← keys? (dropBlanks rest)
    let (path, key) ← splitLast? keys
    match rest with
    | ']' :: ']' :: rest => do
      let grown ← draft.apply (alter false (openElement key) path ⟨false, false⟩ draft.entries)
      some ({ grown with header := keys }, rest)
    | _ => none
  | '[' :: rest => do
    let (keys, rest) ← keys? (dropBlanks rest)
    let (path, key) ← splitLast? keys
    match rest with
    | ']' :: rest => do
      let grown ← draft.apply (alter false (openTable key) path ⟨false, false⟩ draft.entries)
      some ({ grown with header := keys }, rest)
    | _ => none
  | _ => do
    let (keys, rest) ← keys? chars
    match rest with
    | '=' :: rest => do
      let (value, rest) ← value? (depthLimit + 1) (dropBlanks rest)
      let grown ← draft.apply (alter false (addKey keys value) draft.header ⟨false, false⟩ draft.entries)
      some (grown, rest)
    | _ => none

/-- Reads lines to the end of the document. -/
def lines? : Nat → Draft → List Char → Option Draft
  | 0, draft, chars => if chars.isEmpty then some draft else none
  | fuel + 1, draft, chars =>
    let here := dropBlanks chars
    if here.isEmpty then some draft
    else
      match lineEnd? here with
      | some rest => lines? fuel draft rest
      | none => do
        let (grown, rest) ← line? draft here
        let behind ← lineEnd? rest
        lines? fuel grown behind

/-- Reads a document; its top is a table. Nothing is said about what is wrong with it. -/
def parse (text : String) : Option (List (String × Value)) :=
  let chars := match text.toList with
    | '\uFEFF' :: rest => rest
    | chars => chars
  (lines? (chars.length + 1) ⟨[], []⟩ chars).map fun draft => entryValues draft.entries

end TestMeasures.Toml
