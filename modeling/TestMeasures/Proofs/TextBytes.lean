import Mathlib.Tactic.SplitIfs
import TestMeasures.Text.Utf8

/-!
# Text as bytes

Reading the bytes of characters gives the characters back, strictly and with faults tolerated
(`Utf8.decode_bytes_of`, `Utf8.decode_lossy_bytes_of`). A byte below 128 stands among the bytes of
characters only for the character of that number (`Utf8.mem_bytes_of_ascii`), so the signs of markup
can be looked for in either.
-/

namespace TestMeasures.Text.Utf8

section units

variable {a b c d : UInt8} {rest : List UInt8}

/-- A byte that stands alone is decoded by itself. -/
theorem pieces_one (h : width a = 1) :
    pieces (a :: rest) = .scalar (Char.ofNat a.toNat) :: pieces rest := by
  rw [pieces.eq_def]
  simp only [h]

/-- Two bytes that belong together are decoded as one character. -/
theorem pieces_two (h : width a = 2) (hb : isSecond a b = true) :
    pieces (a :: b :: rest) = .scalar (Char.ofNat (a.toNat % 32 * 64 + low b)) :: pieces rest := by
  rw [pieces.eq_def]
  simp only [h, hb, if_true]

/-- Three bytes that belong together are decoded as one character. -/
theorem pieces_three (h : width a = 3) (hb : isSecond a b = true) (hc : isContinuation c = true) :
    pieces (a :: b :: c :: rest) =
      .scalar (Char.ofNat (a.toNat % 16 * 4096 + low b * 64 + low c)) :: pieces rest := by
  rw [pieces.eq_def]
  simp only [h, hb, hc, if_true]

/-- Four bytes that belong together are decoded as one character. -/
theorem pieces_four (h : width a = 4) (hb : isSecond a b = true) (hc : isContinuation c = true)
    (hd : isContinuation d = true) :
    pieces (a :: b :: c :: d :: rest) =
      .scalar (Char.ofNat (a.toNat % 8 * 262144 + low b * 4096 + low c * 64 + low d)) ::
        pieces rest := by
  rw [pieces.eq_def]
  simp only [h, hb, hc, hd, if_true]

end units

/-- The last six bits of a number make a continuation byte. -/
theorem is_continuation_of_nat (n : Nat) : isContinuation (UInt8.ofNat (n % 64 + 0x80)) = true := by
  simp only [isContinuation, UInt8.toNat_ofNat_of_lt' (show n % 64 + 0x80 < 256 by omega), Bool.and_eq_true,
    decide_eq_true_eq]
  omega

/-- A continuation byte holds the last six bits of the number that it was made of. -/
theorem low_of_nat (n : Nat) : low (UInt8.ofNat (n % 64 + 0x80)) = n % 64 := by
  rw [low, UInt8.toNat_ofNat_of_lt' (show n % 64 + 0x80 < 256 by omega)]
  omega

/-- The number of a character is no surrogate and within range. -/
theorem valid_to_nat (c : Char) : c.toNat < 0xD800 ∨ 0xDFFF < c.toNat ∧ c.toNat < 0x110000 :=
  c.valid

/-- A continuation byte can stand second behind a lead byte, within the bounds that some leads set. -/
theorem is_second_of_nat {lead second : Nat} (hlead : lead < 256)
    (hsecond : 0x80 ≤ second ∧ second ≤ 0xBF)
    (hlow : (lead = 0xE0 → 0xA0 ≤ second) ∧ (lead = 0xF0 → 0x90 ≤ second))
    (hhigh : (lead = 0xED → second ≤ 0x9F) ∧ (lead = 0xF4 → second ≤ 0x8F)) :
    isSecond (UInt8.ofNat lead) (UInt8.ofNat second) = true := by
  simp only [isSecond, UInt8.toNat_ofNat_of_lt' hlead, UInt8.toNat_ofNat_of_lt' (show second < 256 by omega),
    Bool.and_eq_true, decide_eq_true_eq]
  constructor
  · unfold secondLow
    split_ifs <;> omega
  · unfold secondHigh
    split_ifs <;> omega

section encoded

variable {v : Nat} (rest : List UInt8)

/-- The byte of a character below 128 is decoded as the character. -/
theorem pieces_encoded_one (h : v ≤ 0x7F) :
    pieces (UInt8.ofNat v :: rest) = .scalar (Char.ofNat v) :: pieces rest := by
  have hlead := UInt8.toNat_ofNat_of_lt' (show v < 256 by omega)
  have hwidth : width (UInt8.ofNat v) = 1 := by
    simp only [width, hlead]
    rw [if_pos (by omega)]
  rw [pieces_one hwidth, hlead]

/-- The two bytes of a character are decoded as the character. -/
theorem pieces_encoded_two (hlow : 0x7F < v) (h : v ≤ 0x7FF) :
    pieces (UInt8.ofNat (v / 64 % 32 + 0xC0) :: UInt8.ofNat (v % 64 + 0x80) :: rest) =
      .scalar (Char.ofNat v) :: pieces rest := by
  have hlead := UInt8.toNat_ofNat_of_lt' (show v / 64 % 32 + 0xC0 < 256 by omega)
  have hwidth : width (UInt8.ofNat (v / 64 % 32 + 0xC0)) = 2 := by
    simp only [width, hlead]
    rw [if_neg (by omega), if_neg (by omega), if_pos (by omega)]
  have hsecond :
      isSecond (UInt8.ofNat (v / 64 % 32 + 0xC0)) (UInt8.ofNat (v % 64 + 0x80)) = true :=
    is_second_of_nat (by omega) (by omega) (by omega) (by omega)
  rw [pieces_two hwidth hsecond, hlead, low_of_nat,
    show (v / 64 % 32 + 0xC0) % 32 * 64 + v % 64 = v by omega]

/-- Three bytes are read as their number, unless it is that of a surrogate. -/
theorem pieces_encoded_three (hlow : 0x7FF < v) (h : v ≤ 0xFFFF)
    (hvalid : v < 0xD800 ∨ 0xDFFF < v) :
    pieces (UInt8.ofNat (v / 4096 % 16 + 0xE0) :: UInt8.ofNat (v / 64 % 64 + 0x80) ::
        UInt8.ofNat (v % 64 + 0x80) :: rest) =
      .scalar (Char.ofNat v) :: pieces rest := by
  have hlead := UInt8.toNat_ofNat_of_lt' (show v / 4096 % 16 + 0xE0 < 256 by omega)
  have hwidth : width (UInt8.ofNat (v / 4096 % 16 + 0xE0)) = 3 := by
    simp only [width, hlead]
    rw [if_neg (by omega), if_neg (by omega), if_neg (by omega), if_pos (by omega)]
  have hsecond :
      isSecond (UInt8.ofNat (v / 4096 % 16 + 0xE0)) (UInt8.ofNat (v / 64 % 64 + 0x80)) = true :=
    is_second_of_nat (by omega) (by omega) (by omega) (by omega)
  rw [pieces_three hwidth hsecond (is_continuation_of_nat v), hlead, low_of_nat, low_of_nat,
    show (v / 4096 % 16 + 0xE0) % 16 * 4096 + v / 64 % 64 * 64 + v % 64 = v by omega]

/-- Four bytes are read as their number, within the range of characters. -/
theorem pieces_encoded_four (hlow : 0xFFFF < v) (h : v < 0x110000) :
    pieces (UInt8.ofNat (v / 262144 % 8 + 0xF0) :: UInt8.ofNat (v / 4096 % 64 + 0x80) ::
        UInt8.ofNat (v / 64 % 64 + 0x80) :: UInt8.ofNat (v % 64 + 0x80) :: rest) =
      .scalar (Char.ofNat v) :: pieces rest := by
  have hlead := UInt8.toNat_ofNat_of_lt' (show v / 262144 % 8 + 0xF0 < 256 by omega)
  have hwidth : width (UInt8.ofNat (v / 262144 % 8 + 0xF0)) = 4 := by
    simp only [width, hlead]
    rw [if_neg (by omega), if_neg (by omega), if_neg (by omega), if_neg (by omega),
      if_pos (by omega)]
  have hsecond :
      isSecond (UInt8.ofNat (v / 262144 % 8 + 0xF0))
        (UInt8.ofNat (v / 4096 % 64 + 0x80)) = true :=
    is_second_of_nat (by omega) (by omega) (by omega) (by omega)
  have hnumber : (v / 262144 % 8 + 0xF0) % 8 * 262144 + v / 4096 % 64 * 4096 + v / 64 % 64 * 64 +
      v % 64 = v := by omega
  rw [pieces_four hwidth hsecond (is_continuation_of_nat (v / 64)) (is_continuation_of_nat v),
    hlead, low_of_nat, low_of_nat, low_of_nat, hnumber]

end encoded

/-- The bytes of a character are read as that character. -/
theorem pieces_encode_char (c : Char) (rest : List UInt8) :
    pieces (String.utf8EncodeChar c ++ rest) = .scalar c :: pieces rest := by
  have hvalid := valid_to_nat c
  have hchar : Char.ofNat c.toNat = c := Char.ofNat_toNat c
  unfold String.utf8EncodeChar
  simp only [show c.val.toNat = c.toNat from rfl]
  generalize c.toNat = v at hvalid hchar
  subst hchar
  split_ifs with hone htwo hthree
  · exact pieces_encoded_one rest hone
  · exact pieces_encoded_two rest (by omega) htwo
  · exact pieces_encoded_three rest (by omega) hthree (by omega)
  · exact pieces_encoded_four rest (by omega) (by omega)

/-- The bytes of characters. -/
def bytesOf (chars : List Char) : List UInt8 :=
  chars.flatMap String.utf8EncodeChar

variable {chars : List Char}

/-- No characters have no bytes. -/
@[simp]
theorem bytes_of_nil : bytesOf [] = [] := rfl

/-- The bytes of characters and others are those of the first and those of the others. -/
@[simp]
theorem bytes_of_append (chars others : List Char) :
    bytesOf (chars ++ others) = bytesOf chars ++ bytesOf others :=
  List.flatMap_append

/-- The bytes of a character stand in front of those of the characters behind it. -/
theorem bytes_of_cons (c : Char) (chars : List Char) :
    bytesOf (c :: chars) = String.utf8EncodeChar c ++ bytesOf chars := rfl

/-- A text is encoded as the bytes of its characters. -/
theorem encode_of_list (chars : List Char) : encode (String.ofList chars) = bytesOf chars := by
  rw [encode, String.toList_ofList, bytesOf]

/-- The bytes of characters are read as these characters, whatever comes behind them. -/
theorem pieces_bytes_of (chars : List Char) (rest : List UInt8) :
    pieces (bytesOf chars ++ rest) = chars.map .scalar ++ pieces rest := by
  induction chars with
  | nil => rfl
  | cons c chars ih => rw [bytes_of_cons, List.append_assoc, pieces_encode_char, ih, List.map_cons,
      List.cons_append]

/-- The bytes of characters are decoded as the characters. -/
theorem pieces_bytes_of_all (chars : List Char) : pieces (bytesOf chars) = chars.map .scalar := by
  have h := pieces_bytes_of chars []
  rwa [List.append_nil, pieces, List.append_nil] at h

/-- Characters alone pass as they are. -/
theorem strict_scalars (index : Nat) (chars : List Char) :
    strict index (chars.map .scalar) = .ok chars := by
  induction chars generalizing index with
  | nil => rfl
  | cons c chars ih =>
      rw [List.map_cons, strict, ih]
      rfl

/-- The bytes of characters are decoded as their text. -/
theorem decode_bytes_of (chars : List Char) :
    decode (bytesOf chars) = .ok (String.ofList chars) := by
  rw [decode, pieces_bytes_of_all, strict_scalars]
  rfl

/-- The bytes of characters are decoded without loss as their text. -/
theorem decode_lossy_bytes_of (chars : List Char) :
    decodeLossy (bytesOf chars) = String.ofList chars := by
  rw [decodeLossy, pieces_bytes_of_all, List.map_map]
  exact congrArg _ (List.map_id chars)

/-- Different characters have different bytes. -/
theorem bytes_of_injective : Function.Injective bytesOf := by
  intro chars others h
  have hdecoded := decode_bytes_of chars
  rw [h, decode_bytes_of] at hdecoded
  exact (String.ofList_injective (Except.ok.inj hdecoded)).symm

/-- A byte order mark in front of characters is the first of them. -/
theorem drop_mark_cons {c : Char} (h : byteOrderMark.isPrefixOf (bytesOf (c :: chars)) = true) :
    (bytesOf (c :: chars)).drop 3 = bytesOf chars := by
  have hmark : byteOrderMark = String.utf8EncodeChar '\uFEFF' := by decide
  obtain ⟨behind, hbehind⟩ := List.isPrefixOf_iff_prefix.mp h
  -- The first character read is the mark on one side and that of the text on the other.
  have hpieces := congrArg pieces hbehind
  rw [hmark, bytes_of_cons, pieces_encode_char, pieces_encode_char] at hpieces
  obtain rfl : '\uFEFF' = c := by simpa using List.head_eq_of_cons_eq hpieces
  rw [bytes_of_cons, ← hmark]
  rfl

section ascii

/-- A character below 128 is one byte. -/
theorem encode_char_ascii {c : Char} (h : c.toNat < 128) :
    String.utf8EncodeChar c = [c.toUInt8] := by
  have hle : c.val.toNat ≤ 0x7f := Nat.le_of_lt_succ h
  unfold String.utf8EncodeChar
  simp only [hle, if_true]
  rfl

/-- The byte of a character below 128 is its number. -/
theorem to_nat_ascii {c : Char} (h : c.toNat < 128) : c.toUInt8.toNat = c.toNat :=
  UInt8.toNat_ofNat_of_lt' (Nat.lt_trans h (by decide))

/-- Every byte of a character of 128 or above is one. -/
theorem le_of_mem_encode_char {c : Char} (h : ¬ c.toNat < 128) {b : UInt8}
    (hb : b ∈ String.utf8EncodeChar c) :
    128 ≤ b.toNat := by
  have hle : ¬ c.val.toNat ≤ 0x7f := fun hle => h (Nat.lt_succ_of_le hle)
  have hsize : UInt8.size = 256 := rfl
  unfold String.utf8EncodeChar at hb
  simp only [hle, if_false] at hb
  split at hb
  case isTrue =>
    simp only [List.mem_cons, List.not_mem_nil, or_false] at hb
    rcases hb with rfl | rfl <;> rw [UInt8.toNat_ofNat_of_lt' (by omega)] <;> omega
  case isFalse =>
    split at hb <;> simp only [List.mem_cons, List.not_mem_nil, or_false] at hb
    case isTrue => rcases hb with rfl | rfl | rfl <;> rw [UInt8.toNat_ofNat_of_lt' (by omega)] <;> omega
    case isFalse =>
      rcases hb with rfl | rfl | rfl | rfl <;> rw [UInt8.toNat_ofNat_of_lt' (by omega)] <;> omega

/-- The byte of a character below 128 stands among the bytes of characters that have it. -/
theorem mem_bytes_of_ascii {a : Char} (ha : a.toNat < 128) :
    a.toUInt8 ∈ bytesOf chars ↔ a ∈ chars := by
  rw [bytesOf, List.mem_flatMap]
  constructor
  · rintro ⟨c, hc, hb⟩
    by_cases h : c.toNat < 128
    · rw [encode_char_ascii h, List.mem_singleton] at hb
      have hnat := congrArg UInt8.toNat hb
      rw [to_nat_ascii ha, to_nat_ascii h] at hnat
      rwa [Char.toNat_inj.mp hnat]
    · have hle := le_of_mem_encode_char h hb
      rw [to_nat_ascii ha] at hle
      omega
  · intro hmem
    exact ⟨a, hmem, by simp [encode_char_ascii ha]⟩

end ascii

end TestMeasures.Text.Utf8
