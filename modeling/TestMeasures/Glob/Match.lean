import TestMeasures.Glob.Token
import TestMeasures.Text.Utf8

/-!
# Matching paths against globs

A token is a relation between a byte sequence and what may be left of it; a glob matches a path when it
can leave nothing. Sets are sets of bytes: a longer character contributes each of its bytes.
-/

namespace TestMeasures.Glob

/-- The byte of the separator. -/
def separatorByte : UInt8 := 0x2F

/-- The bytes of a list and of what is left of it at every place, the list itself first. -/
def suffixes : List UInt8 → List (List UInt8)
  | [] => [[]]
  | b :: rest => (b :: rest) :: suffixes rest

/-- What is left behind any bytes without a separator. -/
def afterStar : List UInt8 → List (List UInt8)
  | [] => [[]]
  | b :: rest => if b = separatorByte then [b :: rest] else (b :: rest) :: afterStar rest

/-- What is left behind each separator. -/
def afterSeparators : List UInt8 → List (List UInt8)
  | [] => []
  | b :: rest => if b = separatorByte then rest :: afterSeparators rest else afterSeparators rest

/-- What is left behind given bytes at the front. -/
def afterBytes : List UInt8 → List UInt8 → List (List UInt8)
  | [], bytes => [bytes]
  | _ :: _, [] => []
  | a :: as, b :: bytes => if a = b then afterBytes as bytes else []

/-- The byte ranges of a range of characters: every byte of its ends counts by itself, except that the
last byte of the lower end and the first byte of the upper end span a range. -/
def byteRanges (range : Char × Char) : List (UInt8 × UInt8) :=
  let low := String.utf8EncodeChar range.1
  let high := String.utf8EncodeChar range.2
  if range.1 = range.2 then low.map fun b => (b, b)
  else
    low.dropLast.map (fun b => (b, b)) ++ (low.getLast?.toList.zip high) ++
      high.tail.map fun b => (b, b)

/-- Whether a byte is in a set. -/
def inSet (negated : Bool) (ranges : List (Char × Char)) (b : UInt8) : Bool :=
  (ranges.flatMap byteRanges).any (fun range => range.1 ≤ b && b ≤ range.2) != negated

mutual

/-- Whether a token is a group of nothing but empty alternatives. -/
def Token.isVoid : Token → Bool
  | .choice alternatives => allVoid alternatives
  | _ => false

/-- Whether a glob has no token that says anything. -/
def isVoid : List Token → Bool
  | [] => true
  | token :: rest => token.isVoid && isVoid rest

/-- Whether every alternative is void. -/
def allVoid : List (List Token) → Bool
  | [] => true
  | glob :: rest => isVoid glob && allVoid rest

end

mutual

/-- What may be left behind a token. -/
def Token.rests : Token → List UInt8 → List (List UInt8)
  | .literal c, bytes => afterBytes (String.utf8EncodeChar c) bytes
  | .any, bytes =>
    match bytes with
    | [] => []
    | b :: rest => if b = separatorByte then [] else [rest]
  | .star, bytes => afterStar bytes
  | .anyPrefix, bytes => bytes :: afterSeparators bytes
  | .anySuffix, bytes =>
    match bytes with
    | [] => []
    | b :: rest => if b = separatorByte then suffixes rest else []
  | .anyBetween, bytes =>
    match bytes with
    | [] => []
    | b :: rest => if b = separatorByte then rest :: afterSeparators rest else []
  | .oneOf negated ranges, bytes =>
    match bytes with
    | [] => []
    | b :: rest => if inSet negated ranges b then [rest] else []
  | .choice alternatives, bytes =>
    if allVoid alternatives then [bytes] else choiceRests alternatives bytes

/-- What may be left behind tokens in a row. -/
def rests : List Token → List UInt8 → List (List UInt8)
  | [], bytes => [bytes]
  | token :: rest, bytes => ((token.rests bytes).flatMap (rests rest)).eraseDups

/-- What may be left behind one of several globs; empty alternatives do not count. -/
def choiceRests : List (List Token) → List UInt8 → List (List UInt8)
  | [], _ => []
  | glob :: others, bytes =>
    (if isVoid glob then [] else rests glob bytes) ++ choiceRests others bytes

end

/-- Whether a glob matches a path. A glob of nothing but `**` matches every path. -/
def isMatch (glob : List Token) (path : String) : Bool :=
  match glob with
  | [.anyPrefix] => true
  | _ => (rests glob (Text.Utf8.encode path)).contains []

end TestMeasures.Glob
