import TestMeasures.Toml.Scalar

/-!
# Quoted text

Texts in double quotes have escapes, texts in single quotes have none. Tripled quotes allow line breaks
inside; a break directly behind the opening quotes does not count, and up to two quotes may stand before
the closing ones.
-/

namespace TestMeasures.Toml

/-- Whether a character may stand in a comment or a text: no control but the tab. -/
def isPlain (c : Char) : Bool :=
  c == '\t' || (0x20 ≤ c.toNat && c.toNat != 0x7F)

/-- Reads a hexadecimal number of exactly so many digits as a character. -/
def hexChar? (size : Nat) (chars : List Char) : Option (Char × List Char) :=
  let digits := chars.take size
  if digits.length = size ∧ digits.all fun c => (baseDigit? 16 c).isSome then
    let code := baseValue 16 digits
    if h : code.isValidChar then some (Char.ofNatAux code h, chars.drop size) else none
  else none

/-- Reads the character of an escape behind its backslash. -/
def escape? : List Char → Option (Char × List Char)
  | [] => none
  | c :: rest =>
    if c = 'b' then some ('\x08', rest)
    else if c = 't' then some ('\t', rest)
    else if c = 'n' then some ('\n', rest)
    else if c = 'f' then some ('\x0C', rest)
    else if c = 'r' then some ('\r', rest)
    else if c = 'e' then some ('\x1B', rest)
    else if c = '"' then some ('"', rest)
    else if c = '\\' then some ('\\', rest)
    else if c = 'x' then hexChar? 2 rest
    else if c = 'u' then hexChar? 4 rest
    else if c = 'U' then hexChar? 8 rest
    else none

/-- What is left behind a line break. -/
def lineBreak? : List Char → Option (List Char)
  | '\n' :: rest => some rest
  | '\r' :: '\n' :: rest => some rest
  | _ => none

/-- What is left behind blanks. -/
def dropBlanks (chars : List Char) : List Char :=
  chars.dropWhile fun c => c == ' ' || c == '\t'

/-- What is left behind blanks and line breaks. -/
def dropBreaks : Nat → List Char → List Char
  | 0, chars => chars
  | fuel + 1, chars =>
    match lineBreak? (dropBlanks chars) with
    | some rest => dropBreaks fuel rest
    | none => dropBlanks chars

/-- Reads a text on one line behind its opening quote. Each step takes a character, so their number
bounds the steps, here as below. -/
def lineText? (quote : Char) : Nat → List Char → Option (List Char × List Char)
  | 0, _ => none
  | _ + 1, [] => none
  | fuel + 1, c :: rest =>
    if c = quote then some ([], rest)
    else if c = '\\' ∧ quote = '"' then do
      let (escaped, after) ← escape? rest
      let (text, last) ← lineText? quote fuel after
      some (escaped :: text, last)
    else if isPlain c then (lineText? quote fuel rest).map fun read => (c :: read.1, read.2)
    else none

/-- Reads a text on several lines behind its opening quotes. -/
def blockText? (quote : Char) : Nat → List Char → Option (List Char × List Char)
  | 0, _ => none
  | _ + 1, [] => none
  | fuel + 1, c :: rest =>
    let quotes := ((c :: rest).takeWhile (· == quote)).length
    if quotes ≥ 3 then
      if quotes > 5 then none
      else some (List.replicate (quotes - 3) quote, (c :: rest).drop quotes)
    else if c = '\\' ∧ quote = '"' then
      match lineBreak? (dropBlanks rest) with
      | some after => blockText? quote fuel (dropBreaks after.length after)
      | none => do
        let (escaped, after) ← escape? rest
        let (text, last) ← blockText? quote fuel after
        some (escaped :: text, last)
    else
      match lineBreak? (c :: rest) with
      | some after => (blockText? quote fuel after).map fun read => ('\n' :: read.1, read.2)
      | none =>
        if isPlain c then (blockText? quote fuel rest).map fun read => (c :: read.1, read.2)
        else none

/-- Reads a quoted text behind its first quote. -/
def quotedText? (quote : Char) (chars : List Char) : Option (String × List Char) :=
  let read :=
    if chars.take 2 = [quote, quote] then
      let body := chars.drop 2
      blockText? quote (body.length + 1) ((lineBreak? body).getD body)
    else lineText? quote (chars.length + 1) chars
  read.map fun read => (String.ofList read.1, read.2)

end TestMeasures.Toml
