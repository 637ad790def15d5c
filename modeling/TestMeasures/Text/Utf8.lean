/-!
# UTF-8

Bytes are read as a sequence of units: characters, and faulty runs that start no character. Strict
reading stops at the first faulty run and says where it is; lossy reading puts U+FFFD in its place.
-/

namespace TestMeasures.Text.Utf8

/-- What bytes hold, front to back. -/
inductive Piece where
  /-- A well-formed character. -/
  | scalar (c : Char)
  /-- So many bytes that no character can start with. -/
  | invalid (size : Nat)
  /-- The input ends inside a character. -/
  | cut
deriving Repr, DecidableEq, Inhabited

/-- A byte that continues a character. -/
def isContinuation (b : UInt8) : Bool :=
  0x80 ≤ b.toNat && b.toNat < 0xC0

/-- The lowest second byte after a given lead byte of a longer character. -/
def secondLow (lead : Nat) : Nat :=
  if lead = 0xE0 then 0xA0 else if lead = 0xF0 then 0x90 else 0x80

/-- The highest second byte after a given lead byte of a longer character. -/
def secondHigh (lead : Nat) : Nat :=
  if lead = 0xED then 0x9F else if lead = 0xF4 then 0x8F else 0xBF

/-- Whether a byte can stand second after a lead byte. -/
def isSecond (lead second : UInt8) : Bool :=
  secondLow lead.toNat ≤ second.toNat && second.toNat ≤ secondHigh lead.toNat

/-- The number of bytes that a lead byte announces, or zero for a byte that leads nothing. -/
def width (lead : UInt8) : Nat :=
  let n := lead.toNat
  if n < 0x80 then 1
  else if n < 0xC2 then 0
  else if n < 0xE0 then 2
  else if n < 0xF0 then 3
  else if n < 0xF5 then 4
  else 0

/-- The six payload bits of a continuation byte. -/
def low (b : UInt8) : Nat := b.toNat % 64

/-- Reads bytes as characters and faulty runs. -/
def pieces : List UInt8 → List Piece
  | [] => []
  | a :: r1 =>
    match width a with
    | 1 => .scalar (Char.ofNat a.toNat) :: pieces r1
    | 2 =>
      match r1 with
      | [] => [.cut]
      | b :: r2 =>
        if isSecond a b then .scalar (Char.ofNat (a.toNat % 32 * 64 + low b)) :: pieces r2
        else .invalid 1 :: pieces (b :: r2)
    | 3 =>
      match r1 with
      | [] => [.cut]
      | b :: r2 =>
        if isSecond a b then
          match r2 with
          | [] => [.cut]
          | c :: r3 =>
            if isContinuation c then
              .scalar (Char.ofNat (a.toNat % 16 * 4096 + low b * 64 + low c)) :: pieces r3
            else .invalid 2 :: pieces (c :: r3)
        else .invalid 1 :: pieces (b :: r2)
    | 4 =>
      match r1 with
      | [] => [.cut]
      | b :: r2 =>
        if isSecond a b then
          match r2 with
          | [] => [.cut]
          | c :: r3 =>
            if isContinuation c then
              match r3 with
              | [] => [.cut]
              | d :: r4 =>
                if isContinuation d then
                  .scalar (Char.ofNat
                    (a.toNat % 8 * 262144 + low b * 4096 + low c * 64 + low d)) :: pieces r4
                else .invalid 3 :: pieces (d :: r4)
            else .invalid 2 :: pieces (c :: r3)
        else .invalid 1 :: pieces (b :: r2)
    | _ => .invalid 1 :: pieces r1

/-- Where strict reading stops, and whether the input merely ended too early. -/
inductive Fault where
  | invalid (size index : Nat)
  | cut (index : Nat)
deriving Repr, DecidableEq, Inhabited

/-- The message of a decoding fault. -/
def Fault.message : Fault → String
  | .invalid size index =>
    "invalid utf-8 sequence of " ++ toString size ++ " bytes from index " ++ toString index
  | .cut index => "incomplete utf-8 byte sequence from index " ++ toString index

/-- The characters of pieces that start at a byte index, unless one of them is faulty. -/
def strict (index : Nat) : List Piece → Except Fault (List Char)
  | [] => .ok []
  | .scalar c :: rest => (strict (index + c.utf8Size) rest).map (c :: ·)
  | .invalid size :: _ => .error (.invalid size index)
  | .cut :: _ => .error (.cut index)

/-- The character that stands for a piece when faults are tolerated. -/
def Piece.lossy : Piece → Char
  | .scalar c => c
  | _ => '\uFFFD'

/-- Reads bytes that must be well-formed. -/
def decode (bytes : List UInt8) : Except Fault String :=
  (strict 0 (pieces bytes)).map String.ofList

/-- Reads bytes with U+FFFD for every faulty run. -/
def decodeLossy (bytes : List UInt8) : String :=
  String.ofList ((pieces bytes).map Piece.lossy)

/-- The bytes of a text. -/
def encode (text : String) : List UInt8 :=
  text.toList.flatMap String.utf8EncodeChar

/-- The bytes that mark the start of a text as UTF-8. -/
def byteOrderMark : List UInt8 := [0xEF, 0xBB, 0xBF]

/-- The bytes without a leading byte order mark. -/
def dropMark (bytes : List UInt8) : List UInt8 :=
  if byteOrderMark.isPrefixOf bytes then bytes.drop 3 else bytes

end TestMeasures.Text.Utf8
