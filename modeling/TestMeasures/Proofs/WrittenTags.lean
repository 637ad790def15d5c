import Mathlib.Data.List.TakeWhile
import TestMeasures.Proofs.TextBytes
import TestMeasures.Proofs.WrittenDocument

/-!
# Reading a tag that was written

`Xml.WrittenTag.scan_opening` and its siblings say that a written tag is found again where it ends,
whatever its values hold, and `Xml.WrittenTag.shows` that it shows its element: every attribute has
the value that was written.
-/

namespace TestMeasures

namespace Xml

open Text.Utf8 (bytesOf bytes_of_append mem_bytes_of_ascii)

section bytes

variable {chars : List Char} {b : UInt8}

/-- A byte is white space exactly when it is that of a white space character. -/
theorem is_space_iff : isSpace b = true ↔ ∃ c, IsSpaceChar c ∧ b = c.toUInt8 := by
  constructor
  · intro h
    simp only [isSpace, Bool.or_eq_true, beq_iff_eq] at h
    rcases h with ((rfl | rfl) | rfl) | rfl
    · exact ⟨' ', by simp [IsSpaceChar], rfl⟩
    · exact ⟨'\t', by simp [IsSpaceChar], rfl⟩
    · exact ⟨'\n', by simp [IsSpaceChar], rfl⟩
    · exact ⟨'\r', by simp [IsSpaceChar], rfl⟩
  · rintro ⟨c, rfl | rfl | rfl | rfl, rfl⟩ <;> rfl

/-- White space is written in one byte. -/
theorem IsSpaceChar.ascii {c : Char} (h : IsSpaceChar c) : c.toNat < 128 := by
  rcases h with rfl | rfl | rfl | rfl <;> decide

/-- The bytes of white space are white space. -/
theorem Gap.bytes (gap : Gap) : ∀ b ∈ bytesOf gap.chars, isSpace b = true := by
  intro b hb
  obtain ⟨c, hc, hb⟩ := List.mem_flatMap.mp hb
  have hspace := gap.space c hc
  rw [Text.Utf8.encode_char_ascii hspace.ascii, List.mem_singleton] at hb
  exact is_space_iff.mpr ⟨c, hspace, hb⟩

/-- White space is none of the signs of markup. -/
theorem not_sign_of_space (h : isSpace b = true) :
    b ≠ byte '>' ∧ b ≠ byte '"' ∧ b ≠ byte '\'' ∧ b ≠ byte '=' := by
  simp only [isSpace, Bool.or_eq_true, beq_iff_eq] at h
  rcases h with ((rfl | rfl) | rfl) | rfl <;> decide

/-- A name has no white space in its bytes. -/
theorem IsName.bytes_not_space (h : IsName chars) : ∀ b ∈ bytesOf chars, isSpace b = false := by
  intro b hb
  by_contra hspace
  rw [Bool.not_eq_false] at hspace
  obtain ⟨c, hc, rfl⟩ := is_space_iff.mp hspace
  exact h.noSpace c ((mem_bytes_of_ascii hc.ascii).mp hb) hc

/-- The signs of markup are written in one byte. -/
theorem ascii_of_sign {c : Char} (hc : c ∈ signs) : c.toNat < 128 := by
  simp only [signs, List.mem_cons, List.not_mem_nil, or_false] at hc
  rcases hc with rfl | rfl | rfl | rfl | rfl | rfl <;> decide

/-- A name has no sign of markup in its bytes. -/
theorem IsName.bytes_not_sign (h : IsName chars) {c : Char} (hc : c ∈ signs) :
    byte c ∉ bytesOf chars := by
  rw [mem_bytes_of_ascii (ascii_of_sign hc)]
  exact h.noSign c hc

/-- A name has bytes. -/
theorem IsName.bytes_ne_nil (h : IsName chars) : bytesOf chars ≠ [] := by
  intro hnil
  exact h.nonempty (Text.Utf8.bytes_of_injective hnil)

/-- The first byte of characters is that of their first character, for characters below 128. -/
theorem head_bytes_of {c : Char} (hc : c.toNat < 128) (h : (bytesOf chars).head? = some c.toUInt8) :
    chars.head? = some c := by
  cases chars with
  | nil => cases h
  | cons first chars =>
      rw [Text.Utf8.bytes_of_cons] at h
      cases hbytes : String.utf8EncodeChar first with
      | nil =>
          have hlength := String.length_utf8EncodeChar first
          rw [hbytes] at hlength
          exact absurd hlength (Nat.ne_of_lt first.utf8Size_pos)
      | cons b more =>
          rw [hbytes, List.cons_append, List.head?_cons, Option.some.injEq] at h
          have hmem : c.toUInt8 ∈ bytesOf [first] :=
            List.mem_flatMap.mpr ⟨first, by simp, by simp [hbytes, h]⟩
          obtain rfl : c = first := by simpa using (mem_bytes_of_ascii hc).mp hmem
          rfl

end bytes

section spans

variable {bytes others rest : List UInt8}

/-- Bytes that leave the reading of a tag outside quotes, as it was before them. -/
def Spans (bytes : List UInt8) : Prop :=
  ∀ rest, spanTag none (bytes ++ rest) =
    (spanTag none rest).map fun found => (bytes ++ found.1, found.2)

/-- Bytes that span and others that do so span together. -/
theorem Spans.append (h : Spans bytes) (h' : Spans others) : Spans (bytes ++ others) := by
  intro rest
  rw [List.append_assoc, h, h', Option.map_map]
  simp only [Function.comp_def, List.append_assoc]

/-- No bytes span. -/
theorem spans_nil : Spans [] := by
  intro rest
  cases h : spanTag none rest <;> simp [h]

/-- Bytes without quotes and without `>` span. -/
theorem spans_of_plain (h : ∀ b ∈ bytes, b ≠ byte '>' ∧ b ≠ byte '"' ∧ b ≠ byte '\'') :
    Spans bytes := by
  induction bytes with
  | nil => exact spans_nil
  | cons b bytes ih =>
      intro rest
      obtain ⟨⟨hclose, hdouble, hsingle⟩, hbytes⟩ := List.forall_mem_cons.mp h
      rw [List.cons_append, spanTag]
      simp only [hclose, hdouble, hsingle, if_false, or_self, ih hbytes rest, Option.map_map]
      rfl

/-- Inside quotes nothing but the same quote counts. -/
theorem span_tag_quoted {quote : UInt8} (h : quote ∉ bytes) (rest : List UInt8) :
    spanTag (some quote) (bytes ++ quote :: rest) =
      (spanTag none rest).map fun found => (bytes ++ quote :: found.1, found.2) := by
  induction bytes with
  | nil =>
      rw [List.nil_append, spanTag]
      simp
  | cons b bytes ih =>
      obtain ⟨hb, hbytes⟩ : quote ≠ b ∧ quote ∉ bytes := by simpa using h
      rw [List.cons_append, spanTag]
      simp only [hb.symm, if_false, ih hbytes, Option.map_map]
      rfl

/-- Bytes in quotes that they do not hold span. -/
theorem spans_quoted {quote : UInt8} (hquote : quote = byte '"' ∨ quote = byte '\'')
    (h : quote ∉ bytes) : Spans (quote :: (bytes ++ [quote])) := by
  intro rest
  have hclose : quote ≠ byte '>' := by rcases hquote with rfl | rfl <;> decide
  rw [List.cons_append, spanTag]
  simp only [hclose, if_false, hquote, if_true]
  rw [List.append_assoc, List.singleton_append, span_tag_quoted h, Option.map_map]
  simp [Function.comp_def]

/-- A tag ends behind bytes that leave its reading outside quotes. -/
theorem Spans.span_tag (h : Spans bytes) (rest : List UInt8) :
    spanTag none (bytes ++ byte '>' :: rest) = some (bytes, rest) := by
  rw [h, spanTag]
  simp

end spans

section values

/-- A quotation mark never stands in a value as it is written. -/
theorem mark_not_mem_escape (quote : QuoteStyle) (value : String) : quote.mark ∉ escape value := by
  rw [escape, List.mem_flatMap]
  rintro ⟨c, -, hc⟩
  unfold escapeChar at hc
  split_ifs at hc with hamp hlt hgt hdouble hsingle
  case neg =>
    obtain rfl := List.mem_singleton.mp hc
    cases quote with
    | single => exact hsingle rfl
    | double => exact hdouble rfl
  all_goals
    revert hc
    cases quote <;> decide

/-- A reference is read up to its semicolon. -/
theorem unescape_pending {name : List Char} (h : '&' ∉ name ∧ ';' ∉ name) (size index start : Nat)
    (read rest : List Char) :
    ∃ behind, unescapeChars size index (some ⟨start, read⟩) (name ++ ';' :: rest) =
      (do
        let resolved ← resolveEntity start (read.reverse ++ name)
        let others ← unescapeChars size behind none rest
        pure (resolved :: others)) := by
  induction name generalizing index read with
  | nil => exact ⟨index + 1, by simp [unescapeChars]⟩
  | cons c name ih =>
      obtain ⟨⟨hamp, hname⟩, hsemi, hname'⟩ : ('&' ≠ c ∧ '&' ∉ name) ∧ ';' ≠ c ∧ ';' ∉ name := by
        simpa using h
      obtain ⟨behind, hbehind⟩ := ih ⟨hname, hname'⟩ (index + c.utf8Size) (c :: read)
      refine ⟨behind, ?_⟩
      rw [List.cons_append, unescapeChars, if_neg hamp.symm, if_neg hsemi.symm, hbehind]
      simp

/-- A named entity is replaced by its character. -/
theorem unescape_entity (name : List Char) {c : Char} (h : '&' ∉ name ∧ ';' ∉ name)
    (hc : namedEntity? name = some c) (hnumber : name.head? ≠ some '#') (size index : Nat)
    (rest : List Char) :
    ∃ behind, unescapeChars size index none ('&' :: (name ++ ';' :: rest)) =
      (unescapeChars size behind none rest).map (c :: ·) := by
  obtain ⟨behind, hbehind⟩ := unescape_pending h size (index + 1) index [] rest
  refine ⟨behind, ?_⟩
  have hresolved : resolveEntity index name = .ok c := by
    unfold resolveEntity
    split
    · simp at hnumber
    · rw [hc]
  rw [unescapeChars, if_pos rfl, hbehind, List.reverse_nil, List.nil_append, hresolved]
  cases unescapeChars size behind none rest <;> rfl

/-- A character is read back from its written form. -/
theorem unescape_escape_char (c : Char) (size index : Nat) (rest : List Char) :
    ∃ behind, unescapeChars size index none (escapeChar c ++ rest) =
      (unescapeChars size behind none rest).map (c :: ·) := by
  unfold escapeChar
  split_ifs with hamp hlt hgt hdouble hsingle
  · exact hamp ▸ unescape_entity "amp".toList (by decide) (by decide) (by decide) ..
  · exact hlt ▸ unescape_entity "lt".toList (by decide) (by decide) (by decide) ..
  · exact hgt ▸ unescape_entity "gt".toList (by decide) (by decide) (by decide) ..
  · exact hdouble ▸ unescape_entity "quot".toList (by decide) (by decide) (by decide) ..
  · exact hsingle ▸ unescape_entity "apos".toList (by decide) (by decide) (by decide) ..
  · refine ⟨index + c.utf8Size, ?_⟩
    rw [List.singleton_append, unescapeChars, if_neg hamp]

/-- Escaped characters are unescaped as they were. -/
theorem unescape_escape (chars : List Char) (size index : Nat) :
    unescapeChars size index none (chars.flatMap escapeChar) = .ok chars := by
  induction chars generalizing index with
  | nil => rfl
  | cons c chars ih =>
      obtain ⟨behind, hbehind⟩ := unescape_escape_char c size index (chars.flatMap escapeChar)
      rw [List.flatMap_cons, hbehind, ih]
      rfl

/-- The text of a written value is the value. -/
theorem attribute_text_escape (value : String) :
    attributeText (bytesOf (escape value)) = .ok value := by
  rw [attributeText, Text.Utf8.decode_bytes_of]
  simp only [unescape, String.toList_ofList, escape, unescape_escape, Except.map, Except.mapError,
    String.ofList_toList]

end values

section scanning

variable {bytes rest gap name before behind value : List UInt8} {quote : UInt8}

/-- What satisfies a condition is taken off the front, up to a byte that does not. -/
theorem take_while_append {p : UInt8 → Bool} (h : ∀ b ∈ bytes, p b = true)
    (hrest : ∀ b ∈ rest.head?, p b = false) : (bytes ++ rest).takeWhile p = bytes := by
  rw [List.takeWhile_append_of_pos h]
  cases rest with
  | nil => simp
  | cons b rest => simp [hrest b rfl]

/-- Skipping stops behind the bytes that are to be skipped. -/
theorem Rest.skip_append {p : UInt8 → Bool} (position : Nat) (h : ∀ b ∈ bytes, p b = true)
    (hrest : ∀ b ∈ rest.head?, p b = false) :
    Rest.skip p ⟨position, bytes ++ rest⟩ = ⟨position + bytes.length, rest⟩ := by
  simp only [Rest.skip, take_while_append h hrest, List.drop_left]

/-- The value behind an `=` is what stands between its quotes. -/
theorem scan_value (rest key : List UInt8) (position : Nat)
    (hbehind : ∀ b ∈ behind, isSpace b = true)
    (hquote : quote = byte '"' ∨ quote = byte '\'') (hvalue : quote ∉ value) :
    ∃ next, scanValue key ⟨position, behind ++ quote :: (value ++ quote :: rest)⟩ =
      .ok (⟨key, value⟩, ⟨next, rest⟩) := by
  have hspace : isSpace quote = false := by rcases hquote with rfl | rfl <;> decide
  have htake : (value ++ quote :: rest).takeWhile (· != quote) = value :=
    take_while_append (fun b hb => by simpa using fun heq : b = quote => hvalue (heq ▸ hb))
      (by simp)
  unfold scanValue
  rw [Rest.skip_append position hbehind (by simp [hspace])]
  simp only [hquote, if_true, htake, List.drop_left]
  exact ⟨_, rfl⟩

/-- An attribute is read up to the end of its value. Its name may begin with an equals sign. -/
theorem scan_attribute (rest : List UInt8) (position : Nat) (hgap : ∀ b ∈ gap, isSpace b = true)
    (hname : name ≠ []) (hspace : ∀ b ∈ name, isSpace b = false) (hplain : byte '=' ∉ name.tail)
    (hbefore : ∀ b ∈ before, isSpace b = true)
    (hbehind : ∀ b ∈ behind, isSpace b = true) (hquote : quote = byte '"' ∨ quote = byte '\'')
    (hvalue : quote ∉ value) :
    ∃ next, scanAttribute ⟨position,
        gap ++ (name ++ (before ++ byte '=' :: (behind ++ quote :: (value ++ quote :: rest))))⟩ =
      some (.ok (⟨name, value⟩, ⟨next, rest⟩)) := by
  cases name with
  | nil => exact absurd rfl hname
  | cons first more =>
      obtain ⟨hfirst, hmore⟩ := List.forall_mem_cons.mp hspace
      -- The key ends at white space or at the equals sign, whichever comes first.
      have hstop :
          ∀ b ∈ (before ++ byte '=' :: (behind ++ quote :: (value ++ quote :: rest))).head?,
            (b != byte '=' && !isSpace b) = false := by
        cases before with
        | nil => simp
        | cons b before => simp [(List.forall_mem_cons.mp hbefore).1]
      have hkey : ∀ b ∈ more, (b != byte '=' && !isSpace b) = true := fun b hb => by
        simpa using ⟨fun heq : b = byte '=' => hplain (heq ▸ hb), hmore b hb⟩
      obtain ⟨next, hnext⟩ := scan_value rest (first :: more)
        (position + gap.length + 1 + more.length + before.length + 1) hbehind hquote hvalue
      refine ⟨next, ?_⟩
      unfold scanAttribute
      rw [Rest.skip_append position hgap (by simp [hfirst])]
      simp only [List.cons_append, Rest.tail, List.tail_cons]
      rw [Rest.skip_append _ hkey hstop]
      simp only
      rw [Rest.skip_append _ hbefore (by rintro b ⟨⟩; decide)]
      have hlength :
          position + gap.length + 1 + more.length - (position + gap.length) - 1 = more.length := by
        omega
      simp only [if_true, hlength, List.take_left, List.tail_cons, hnext]

/-- Behind the last attribute there is none. -/
theorem scan_attribute_gap (position : Nat) (hgap : ∀ b ∈ gap, isSpace b = true) :
    scanAttribute ⟨position, gap⟩ = none := by
  have hskip : Rest.skip isSpace ⟨position, gap ++ []⟩ = ⟨position + gap.length, []⟩ :=
    Rest.skip_append position hgap (by simp)
  rw [List.append_nil] at hskip
  simp only [scanAttribute, hskip]

end scanning

namespace WrittenAttribute

variable {given : WrittenAttribute}

/-- A quotation mark is one byte, that of a double or a single quote. -/
theorem quote_mark (given : WrittenAttribute) :
    bytesOf [given.quote.mark] = [given.quote.mark.toUInt8] ∧
      (given.quote.mark.toUInt8 = byte '"' ∨ given.quote.mark.toUInt8 = byte '\'') := by
  cases given.quote <;> decide

/-- The bytes of the name of an attribute and of its value as it is written. -/
def raw (given : WrittenAttribute) : RawAttribute :=
  ⟨bytesOf given.name.toList, bytesOf (escape given.value)⟩

/-- The bytes of an attribute are its white space, its name, its equals sign and its quoted value. -/
theorem bytes_eq (given : WrittenAttribute) :
    bytesOf given.chars = bytesOf given.gap.chars ++ (bytesOf given.name.toList ++
      (bytesOf given.beforeEquals.chars ++ byte '=' :: (bytesOf given.behindEquals.chars ++
        given.quote.mark.toUInt8 ::
          (bytesOf (escape given.value) ++ [given.quote.mark.toUInt8])))) := by
  have hequals : bytesOf ['='] = [byte '='] := by decide
  simp only [chars, bytes_of_append, given.quote_mark.1, hequals]
  simp only [List.append_assoc, List.cons_append, List.nil_append]

/-- The value of an attribute does not hold its quotation mark as it is written. -/
theorem quote_not_mem_value (given : WrittenAttribute) :
    given.quote.mark.toUInt8 ∉ bytesOf (escape given.value) := by
  rw [mem_bytes_of_ascii (by cases given.quote <;> decide)]
  exact mark_not_mem_escape given.quote given.value

/-- An attribute is scanned with its name and its value as it is written. -/
theorem scan (given : WrittenAttribute) (position : Nat) (rest : List UInt8) :
    ∃ next, scanAttribute ⟨position, bytesOf given.chars ++ rest⟩ =
      some (.ok (given.raw, ⟨next, rest⟩)) := by
  obtain ⟨next, hnext⟩ := scan_attribute rest position given.gap.bytes given.isName.bytes_ne_nil
    given.isName.bytes_not_space
    (fun hmem => given.isName.bytes_not_sign (c := '=') (by simp [signs]) (List.mem_of_mem_tail hmem))
    given.beforeEquals.bytes given.behindEquals.bytes given.quote_mark.2 given.quote_not_mem_value
  refine ⟨next, ?_⟩
  rw [given.bytes_eq]
  simpa only [List.append_assoc, List.cons_append, List.nil_append, raw] using hnext

/-- Attributes are searched in order, up to the wanted one or behind the last. -/
theorem find_from (attributes : List WrittenAttribute) (tail : Gap) (name : List UInt8) {fuel : Nat}
    (hfuel : attributes.length ≤ fuel) (position : Nat) :
    findFrom name fuel ⟨position, bytesOf (attributes.flatMap chars) ++ bytesOf tail.chars⟩ =
      .ok ((attributes.find? fun given => given.raw.key = name).map
        fun given => given.raw.value) := by
  induction attributes generalizing fuel position with
  | nil =>
      cases fuel with
      | zero => rfl
      | succ fuel => simp [findFrom, scan_attribute_gap position tail.bytes]
  | cons given attributes ih =>
      cases fuel with
      | zero => cases hfuel
      | succ fuel =>
          rw [List.flatMap_cons, bytes_of_append, List.append_assoc]
          obtain ⟨next, hnext⟩ := given.scan position
            (bytesOf (attributes.flatMap chars) ++ bytesOf tail.chars)
          simp only [findFrom, hnext]
          by_cases hkey : given.raw.key = name
          · simp [hkey]
          · rw [if_neg hkey, ih (Nat.le_of_succ_le_succ hfuel),
              List.find?_cons_of_neg (by simpa using hkey)]

/-- Where names differ, the first attribute of a name is the only one. -/
theorem find_of_distinct {attributes : List WrittenAttribute}
    (hdistinct : (attributes.map WrittenAttribute.name).Nodup) (hgiven : given ∈ attributes) :
    (attributes.find? fun other => other.name = given.name) = some given := by
  induction attributes with
  | nil => cases hgiven
  | cons head others ih =>
      rw [List.map_cons, List.nodup_cons] at hdistinct
      rcases List.mem_cons.mp hgiven with rfl | hgiven
      · simp
      · have hne : head.name ≠ given.name := fun heq =>
          hdistinct.1 (heq ▸ List.mem_map_of_mem hgiven)
        rw [List.find?_cons_of_neg (by simpa using hne)]
        exact ih hdistinct.2 hgiven

end WrittenAttribute

/-- The local name of an element stands behind the colon of its prefix. -/
theorem local_name_eq (name : ElementName) :
    Tag.localName (bytesOf (qualified name.pre name.base)) = bytesOf name.base.toList := by
  have hplain : ∀ b ∈ bytesOf (name.pre.getD name.base).toList, (b != byte ':') = true := by
    intro b hb
    rw [bne_iff_ne]
    rintro rfl
    exact name.noColon ((mem_bytes_of_ascii (by decide)).mp hb)
  unfold Tag.localName
  cases hpre : name.pre with
  | none =>
      rw [hpre, Option.getD_none] at hplain
      rw [qualified, List.dropWhile_eq_nil_iff.mpr hplain]
  | some pre =>
      rw [hpre, Option.getD_some] at hplain
      have hbytes : bytesOf (qualified (some pre) name.base) =
          bytesOf pre.toList ++ byte ':' :: bytesOf name.base.toList := by
        rw [qualified, bytes_of_append, Text.Utf8.bytes_of_cons,
          Text.Utf8.encode_char_ascii (by decide)]
        rfl
      rw [hbytes, List.dropWhile_append_of_pos hplain]
      simp

namespace WrittenTag

variable {tag : WrittenTag}

/-- The bytes of a tag are those of its name, its attributes and the white space behind them. -/
theorem bytes_eq (tag : WrittenTag) :
    bytesOf tag.chars = bytesOf tag.nameChars ++
      (bytesOf (tag.attributes.flatMap WrittenAttribute.chars) ++ bytesOf tag.tail.chars) := by
  simp only [chars, bytes_of_append, List.append_assoc]

/-- The name of a tag ends where the tag does or at white space. -/
theorem space_behind_name (tag : WrittenTag) :
    ∀ b ∈ (bytesOf (tag.attributes.flatMap WrittenAttribute.chars) ++ bytesOf tag.tail.chars).head?,
      isSpace b = true := by
  intro b hb
  cases hattributes : tag.attributes with
  | nil =>
      rw [hattributes] at hb
      exact tag.tail.bytes b (List.mem_of_mem_head? hb)
  | cons given others =>
      cases hgap : bytesOf given.gap.chars with
      | nil => exact absurd (Text.Utf8.bytes_of_injective (hgap.trans rfl)) given.gap_nonempty
      | cons first gap =>
          rw [hattributes, List.flatMap_cons, bytes_of_append, given.bytes_eq, hgap] at hb
          obtain rfl : first = b := by simpa using hb
          exact given.gap.bytes first (by simp [hgap])

/-- The name of a tag is read from its bytes. -/
theorem tag_name_eq (tag : WrittenTag) : tagName (bytesOf tag.chars) = bytesOf tag.nameChars := by
  rw [tagName, tag.bytes_eq]
  exact take_while_append (fun b hb => by simpa using tag.name.isName.bytes_not_space b hb)
    fun b hb => by simpa using tag.space_behind_name b hb

/-- The search for an attribute of a tag finds what was written, and nothing else. -/
theorem find_attribute_eq (tag : WrittenTag) (name : List UInt8) :
    findAttribute (bytesOf tag.chars) name =
      .ok ((tag.attributes.find? fun given => given.raw.key = name).map
        fun given => given.raw.value) := by
  have hlength : ∀ attributes : List WrittenAttribute,
      attributes.length ≤ (bytesOf (attributes.flatMap WrittenAttribute.chars)).length := by
    intro attributes
    induction attributes with
    | nil => exact Nat.zero_le _
    | cons given others ih =>
        rw [List.flatMap_cons, bytes_of_append, given.bytes_eq]
        simp only [List.length_append, List.length_cons]
        omega
  have hfuel : tag.attributes.length ≤ (bytesOf tag.chars).length := by
    have h := hlength tag.attributes
    rw [tag.bytes_eq, List.length_append, List.length_append]
    omega
  unfold findAttribute
  simp only [tag.tag_name_eq]
  rw [show (bytesOf tag.chars).drop (bytesOf tag.nameChars).length = _ from
    tag.bytes_eq ▸ List.drop_left]
  exact WrittenAttribute.find_from tag.attributes tag.tail name hfuel _

/-- The value of an attribute of a tag is the value that was written, if one was. -/
theorem optional_eq (tag : WrittenTag) (position depth : Nat) (name : String) :
    (Tag.ofContent (bytesOf tag.chars) position depth).optional name =
      .ok ((tag.attributes.find? fun given => given.name = name).map WrittenAttribute.value) := by
  have hkey (given : WrittenAttribute) :
      given.raw.key = Text.Utf8.encode name ↔ given.name = name := by
    refine ⟨fun h => String.toList_injective (Text.Utf8.bytes_of_injective h), ?_⟩
    rintro rfl
    rfl
  simp only [Tag.optional, Tag.ofContent, tag.find_attribute_eq, hkey]
  cases tag.attributes.find? fun given => given.name = name with
  | none => rfl
  | some given => simp only [Option.map_some, WrittenAttribute.raw, attribute_text_escape]

/-- A written tag shows its element. -/
theorem shows (tag : WrittenTag) (position depth : Nat) :
    (Tag.ofContent (bytesOf tag.chars) position depth).Shows (tag.element depth) where
  name := by
    have h : (Tag.ofContent (bytesOf tag.chars) position depth).name =
        Text.Utf8.decodeLossy (Tag.localName (tagName (bytesOf tag.chars))) := rfl
    rw [h, tag.tag_name_eq, nameChars, local_name_eq, Text.Utf8.decode_lossy_bytes_of,
      String.ofList_toList]
    rfl
  depth := rfl
  present := by
    intro entry hentry
    obtain ⟨given, hgiven, rfl⟩ := List.mem_map.mp hentry
    rw [optional_eq, WrittenAttribute.find_of_distinct tag.distinct hgiven]
    rfl
  absent := by
    intro name hname
    have hnone : (tag.attributes.find? fun given => given.name = name) = none := by
      rw [List.find?_eq_none]
      intro given hgiven hsame
      refine hname ?_
      rw [element, List.map_map]
      exact List.mem_map.mpr ⟨given, hgiven, by simpa using hsame⟩
    rw [optional_eq, hnone]
    rfl

end WrittenTag

section markup

variable {content rest : List UInt8}

/-- Bytes end in a sign only if the later ones or the earlier ones do. -/
theorem last_append {a b : List UInt8} {sign : UInt8} (ha : a.getLast? ≠ some sign)
    (hb : b.getLast? ≠ some sign) : (a ++ b).getLast? ≠ some sign := by
  rw [List.getLast?_append]
  cases hlast : b.getLast? with
  | none => exact ha
  | some last =>
      rw [hlast] at hb
      exact hb

/-- Bytes without a sign do not end in it. -/
theorem last_of_not_mem {bytes : List UInt8} {sign : UInt8} (h : sign ∉ bytes) :
    bytes.getLast? ≠ some sign :=
  fun hlast => h (List.mem_of_getLast? hlast)

/-- The bytes of a name span. -/
theorem IsName.spans {name : List Char} (h : IsName name) : Spans (bytesOf name) :=
  spans_of_plain fun _ hb => ⟨fun heq => h.bytes_not_sign (c := '>') (by simp [signs]) (heq ▸ hb),
    fun heq => h.bytes_not_sign (c := '"') (by simp [signs]) (heq ▸ hb),
    fun heq => h.bytes_not_sign (c := '\'') (by simp [signs]) (heq ▸ hb)⟩

/-- White space spans. -/
theorem Gap.spans (gap : Gap) : Spans (bytesOf gap.chars) :=
  spans_of_plain fun b hb =>
    have h := not_sign_of_space (gap.bytes b hb)
    ⟨h.1, h.2.1, h.2.2.1⟩

/-- White space does not end in a slash. -/
theorem Gap.last (gap : Gap) : (bytesOf gap.chars).getLast? ≠ some (byte '/') :=
  last_of_not_mem fun hb => absurd (gap.bytes _ hb) (by decide)

/-- The quotes of an attribute are closed behind it, whatever its value holds. -/
theorem WrittenAttribute.spans (given : WrittenAttribute) : Spans (bytesOf given.chars) := by
  have hequals : Spans [byte '='] := spans_of_plain (List.forall_mem_singleton.mpr (by decide))
  rw [given.bytes_eq, ← List.singleton_append (x := byte '=')]
  have hquoted := spans_quoted given.quote_mark.2 given.quote_not_mem_value
  exact given.gap.spans.append (given.isName.spans.append
    (given.beforeEquals.spans.append (hequals.append (given.behindEquals.spans.append hquoted))))

/-- An attribute does not end in a slash. -/
theorem WrittenAttribute.last (given : WrittenAttribute) :
    (bytesOf given.chars).getLast? ≠ some (byte '/') := by
  rw [chars, bytes_of_append, given.quote_mark.1, List.getLast?_concat]
  rcases given.quote_mark.2 with h | h <;> rw [h] <;> decide

namespace WrittenTag

/-- The bytes of a tag span. -/
theorem spans (tag : WrittenTag) : Spans (bytesOf tag.chars) := by
  have hattributes : Spans (bytesOf (tag.attributes.flatMap WrittenAttribute.chars)) := by
    induction tag.attributes with
    | nil => exact spans_nil
    | cons given others ih =>
        rw [List.flatMap_cons, bytes_of_append]
        exact given.spans.append ih
  rw [tag.bytes_eq]
  exact tag.name.isName.spans.append (hattributes.append tag.tail.spans)

/-- What stands in a tag ends with a name, a quote or white space. -/
theorem last (tag : WrittenTag) : (bytesOf tag.chars).getLast? ≠ some (byte '/') := by
  have hattributes :
      (bytesOf (tag.attributes.flatMap WrittenAttribute.chars)).getLast? ≠ some (byte '/') := by
    induction tag.attributes with
    | nil => simp
    | cons given others ih =>
        rw [List.flatMap_cons, bytes_of_append]
        exact last_append given.last ih
  rw [tag.bytes_eq]
  exact last_append (last_of_not_mem (tag.name.isName.bytes_not_sign (by simp [signs])))
    (last_append hattributes tag.tail.last)

/-- A tag begins neither like a declaration or an instruction nor like an end tag. -/
theorem first (tag : WrittenTag) : ∃ b more, bytesOf tag.chars = b :: more ∧
    b ≠ byte '!' ∧ b ≠ byte '?' ∧ b ≠ byte '/' := by
  have hname : IsName tag.nameChars := tag.name.isName
  obtain ⟨b, more, hbytes⟩ := List.exists_cons_of_ne_nil hname.bytes_ne_nil
  have hhead := congrArg List.head? hbytes
  refine ⟨b, _, by rw [tag.bytes_eq, hbytes, List.cons_append], ?_, ?_, ?_⟩
  · rintro rfl
    exact hname.start.1 (head_bytes_of (by decide) hhead)
  · rintro rfl
    exact hname.start.2 (head_bytes_of (by decide) hhead)
  · rintro rfl
    exact hname.bytes_not_sign (c := '/') (by simp [signs]) (hbytes ▸ List.mem_cons_self)

end WrittenTag

/-- Markup that begins like a tag is a tag, up to the first closing bracket outside quotes. -/
theorem scan_tag (hspans : Spans content) (hfirst : ∃ b more, content = b :: more ∧
    b ≠ byte '!' ∧ b ≠ byte '?' ∧ b ≠ byte '/') (rest : List UInt8) :
    Markup.scan (content ++ byte '>' :: rest) = .ok (.ofTagContent content, rest) := by
  obtain ⟨b, more, rfl, hdeclaration, hinstruction, hclosing⟩ := hfirst
  have hspan := hspans.span_tag rest
  rw [List.cons_append] at hspan ⊢
  simp only [Markup.scan, hdeclaration, hinstruction, hclosing, if_false, hspan]

/-- A start tag is scanned up to its `>`. -/
theorem scan_opening (tag : WrittenTag) (rest : List UInt8) :
    Markup.scan (bytesOf tag.chars ++ byte '>' :: rest) =
      .ok (.opening (bytesOf tag.chars), rest) := by
  rw [scan_tag tag.spans tag.first, Markup.ofTagContent, if_neg tag.last]

/-- An empty tag is scanned up to its `/>`. -/
theorem scan_empty (tag : WrittenTag) (rest : List UInt8) :
    Markup.scan (bytesOf tag.chars ++ byte '/' :: byte '>' :: rest) =
      .ok (.empty (bytesOf tag.chars), rest) := by
  have hspans : Spans (bytesOf tag.chars ++ [byte '/']) :=
    tag.spans.append (spans_of_plain (List.forall_mem_singleton.mpr (by decide)))
  obtain ⟨b, more, hbytes, hfirst⟩ := tag.first
  have hscan := scan_tag hspans ⟨b, more ++ [byte '/'], by rw [hbytes, List.cons_append], hfirst⟩
    rest
  rw [List.append_assoc, List.singleton_append] at hscan
  rw [hscan, Markup.ofTagContent, if_pos List.getLast?_concat, List.dropLast_concat]

/-- The bytes of the end tag of an element behind its `<`, with white space behind the name. -/
def WrittenTag.endBytes (tag : WrittenTag) (tail : Gap) (rest : List UInt8) : List UInt8 :=
  byte '/' :: (bytesOf tag.nameChars ++ (bytesOf tail.chars ++ byte '>' :: rest))

/-- An end tag has the name that stands in it, without the white space behind. -/
theorem scan_closing (tag : WrittenTag) (tail : Gap) (rest : List UInt8) :
    Markup.scan (tag.endBytes tail rest) = .ok (.closing (bytesOf tag.nameChars), rest) := by
  have hname : IsName tag.nameChars := tag.name.isName
  have hspan := (hname.spans.append tail.spans).span_tag rest
  rw [List.append_assoc] at hspan
  have hspaces : (bytesOf tail.chars).reverse.dropWhile isSpace = [] :=
    List.dropWhile_eq_nil_iff.mpr fun b hb => tail.bytes b (List.mem_reverse.mp hb)
  have hclosing :
      closingName (bytesOf tag.nameChars ++ bytesOf tail.chars) = bytesOf tag.nameChars := by
    -- Trailing white space goes, up to the last byte of the name.
    have hstop :
        (bytesOf tag.nameChars).reverse.dropWhile isSpace = (bytesOf tag.nameChars).reverse := by
      cases hreverse : (bytesOf tag.nameChars).reverse with
      | nil => rfl
      | cons b more =>
          have hb : b ∈ bytesOf tag.nameChars := List.mem_reverse.mp (hreverse ▸ List.mem_cons_self)
          rw [List.dropWhile_cons_of_neg (by simp [hname.bytes_not_space b hb])]
    obtain ⟨b, more, hbytes⟩ := List.exists_cons_of_ne_nil hname.bytes_ne_nil
    have hspaceless : (bytesOf tag.nameChars ++ bytesOf tail.chars).all isSpace = false := by
      have hb := hname.bytes_not_space b (hbytes ▸ List.mem_cons_self)
      rw [hbytes, List.cons_append, List.all_cons, hb, Bool.false_and]
    rw [closingName, hspaceless, if_neg Bool.false_ne_true, List.reverse_append,
      List.dropWhile_append, hspaces, List.isEmpty_nil, if_pos rfl, hstop, List.reverse_reverse]
  have hmarks : byte '/' ≠ byte '!' ∧ byte '/' ≠ byte '?' := by decide
  simp only [WrittenTag.endBytes, Markup.scan, hmarks.1, hmarks.2, if_false, if_true, hspan,
    hclosing]

/-- A comment cannot close inside what has no dash. -/
theorem span_close_comment (h : byte '-' ∉ content) {before : List UInt8}
    (hbefore : closesComment before = false) :
    spanClose closesComment before (content ++ rest) =
      spanClose closesComment (content.reverse ++ before) rest := by
  induction content generalizing before with
  | nil => rfl
  | cons b content ih =>
      obtain ⟨hb, hcontent⟩ : byte '-' ≠ b ∧ byte '-' ∉ content := by simpa using h
      have hopen : closesComment (b :: before) = false := by
        simp [closesComment, ascii, List.isPrefixOf, beq_eq_false_iff_ne.mpr hb]
      rw [List.cons_append, spanClose, hbefore, Bool.and_false, if_neg Bool.false_ne_true,
        ih hcontent hopen]
      simp

/-- A comment is scanned up to its end. -/
theorem scan_comment (comment : CommentText) (rest : List UInt8) :
    Markup.scan (byte '!' :: byte '-' :: byte '-' :: (bytesOf comment.chars ++
      byte '-' :: byte '-' :: byte '>' :: rest)) = .ok (.other, rest) := by
  have hdash : byte '-' ∉ bytesOf comment.chars := fun hmem =>
    comment.noDash ((mem_bytes_of_ascii (by decide)).mp hmem)
  have hspan : spanClose closesComment [] (byte '-' :: byte '-' :: (bytesOf comment.chars ++
      byte '-' :: byte '-' :: byte '>' :: rest)) =
        some (byte '-' :: byte '-' :: (bytesOf comment.chars ++ [byte '-', byte '-']), rest) := by
    have hopen : ∀ before b more, b ≠ byte '>' →
        spanClose closesComment before (b :: more) =
          spanClose closesComment (b :: before) more := by
      intro before b more hb
      simp [spanClose, hb]
    rw [hopen _ _ _ (by decide), hopen _ _ _ (by decide), span_close_comment hdash (by decide),
      hopen _ _ _ (by decide), hopen _ _ _ (by decide), spanClose]
    simp [closesComment, ascii]
  simp [Markup.scan, scanDeclaration, hspan, ascii]

end markup

end Xml

end TestMeasures
