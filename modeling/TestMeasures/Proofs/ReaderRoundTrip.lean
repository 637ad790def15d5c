import TestMeasures.Proofs.DocumentTags
import TestMeasures.Proofs.WrittenTags

/-!
# Reading a document that was written

`Xml.Forest.reads` follows the parser through a written document: behind it, it has come across the
tags that show the elements, in their order, and as many elements are open as before. The reader
therefore answers these tags and then the end (`reader_answers_written`), and so does the reading of
the whole document (`Reading.of_written`).
-/

namespace TestMeasures

open Xml (Parser Markup Forest byte)
open Text.Utf8 (bytesOf bytes_of_append mem_bytes_of_ascii)

namespace Xml

/-- Events tell elements at every depth: their tags show them, and behind them no element is left
open that was not open before. -/
structure Markup.Event.Tell (events : List Markup.Event) (elements : Nat → List Element) :
    Prop where
  shows : ∀ depth, List.Forall₂ Tag.Shows (Markup.Event.tags depth events) (elements depth)
  balanced : ∀ depth, events.foldl Markup.Event.depthBehind depth = depth

namespace Markup.Event

variable {events others : List Markup.Event} {elements more : Nat → List Element}

/-- The tags of events and others are those of the first, and those of the others at the depth behind
them. -/
theorem tags_append (depth : Nat) (events others : List Markup.Event) :
    tags depth (events ++ others) =
      tags depth events ++ tags (events.foldl depthBehind depth) others := by
  induction events generalizing depth with
  | nil => rfl
  | cons event events ih =>
      rw [List.cons_append, tags, tags, ih, List.append_assoc, List.foldl_cons]

/-- No events tell no elements. -/
theorem Tell.nil : Tell [] fun _ => [] :=
  ⟨fun _ => .nil, fun _ => rfl⟩

/-- A comment tells nothing. -/
theorem Tell.other (h : Tell events elements) : Tell (.other :: events) elements :=
  ⟨h.shows, h.balanced⟩

/-- An empty tag in front tells one more element. -/
theorem Tell.empty (tag : WrittenTag) (position : Nat) (h : Tell events elements) :
    Tell (.empty position (bytesOf tag.chars) :: events)
      fun depth => tag.element depth :: elements depth :=
  ⟨fun depth => .cons (tag.shows position depth) (h.shows depth), h.balanced⟩

/-- An element is told around what is inside it. -/
theorem Tell.element (tag : WrittenTag) (position : Nat) (hinner : Tell events elements)
    (hrest : Tell others more) :
    Tell (.opened position (bytesOf tag.chars) :: (events ++ .closed :: others))
      fun depth => tag.element depth :: (elements (depth + 1) ++ more depth) where
  shows depth := by
    have hinside : tags (depth + 1) (events ++ .closed :: others) =
        tags (depth + 1) events ++ tags depth others := by
      rw [tags_append, hinner.balanced]
      rfl
    have htags :
        tags depth (.opened position (bytesOf tag.chars) :: (events ++ .closed :: others)) =
          Tag.ofContent (bytesOf tag.chars) position depth ::
            (tags (depth + 1) events ++ tags depth others) :=
      congrArg (Tag.ofContent (bytesOf tag.chars) position depth :: ·) hinside
    rw [htags]
    exact .cons (tag.shows position depth)
      (List.rel_append (hinner.shows (depth + 1)) (hrest.shows depth))
  balanced depth := by
    rw [List.foldl_cons, List.foldl_append, List.foldl_cons]
    change others.foldl depthBehind (events.foldl depthBehind (depth + 1) - 1) = depth
    rw [hinner.balanced, Nat.add_sub_cancel, hrest.balanced]

end Markup.Event

namespace Parser

variable {text bytes rest : List UInt8} {unclosed : List (List UInt8)}

/-- A parser that reads events and then others reads both. -/
theorem Reads.append {parser middle final : Parser} {events others : List Markup.Event}
    (h : parser.Reads events middle) (hothers : middle.Reads others final) :
    parser.Reads (events ++ others) final := by
  induction h with
  | nil => exact hothers
  | cons hnext hevent _ ih => exact .cons hnext hevent (ih hothers)

/-- Text ends at the next `<`. -/
theorem take_text (rest : List UInt8) (h : byte '<' ∉ text)
    (hrest : ∀ b ∈ rest.head?, b = byte '<') :
    (text ++ rest).takeWhile (· != byte '<') = text :=
  take_while_append (fun b hb => by simpa using fun heq : b = byte '<' => h (heq ▸ hb))
    fun b hb => by simp [hrest b hb]

/-- The parser reads over text and meets the markup behind it. -/
theorem next_at {markup : Markup} (h : byte '<' ∉ text)
    (hscan : Markup.scan bytes = .ok (markup, rest)) (offset : Nat)
    (unclosed : List (List UInt8)) :
    next ⟨text ++ byte '<' :: bytes, offset, unclosed⟩ =
      meet ⟨rest, offset + text.length + 1 + (bytes.length - rest.length), unclosed⟩
        (offset + text.length) markup := by
  have htext := take_text (byte '<' :: bytes) h (by simp)
  simp only [next, htext, List.drop_left, hscan]

/-- Behind text, a parser meets the markup that is scanned from the next `<`. -/
theorem next_eq {markup : Markup} (h : byte '<' ∉ text)
    (hscan : Markup.scan bytes = .ok (markup, rest)) (offset : Nat)
    (unclosed : List (List UInt8)) :
    ∃ position behind, next ⟨text ++ byte '<' :: bytes, offset, unclosed⟩ =
      meet ⟨rest, behind, unclosed⟩ position markup :=
  ⟨_, _, next_at h hscan offset unclosed⟩

/-- An end tag closes the innermost open element when it has its name. -/
theorem meet_closing (rest : List UInt8) (offset : Nat) (name : List UInt8) (position : Nat) :
    meet ⟨rest, offset, name :: unclosed⟩ position (.closing name) =
      (.closed, ⟨rest, offset, unclosed⟩) := by
  simp only [meet, if_true]

/-- Behind the last markup nothing is left but text. -/
theorem next_finished (h : byte '<' ∉ text) (offset : Nat) :
    (next ⟨text, offset, unclosed⟩).1 = .finished := by
  have htext := take_text [] h (by simp)
  rw [List.append_nil] at htext
  simp only [next, htext, List.drop_length]

end Parser

namespace Forest

section bytes

variable (tag : WrittenTag) (others : Forest) (rest : List UInt8)

/-- Text in front of a forest is written in front of it. -/
theorem bytes_text (content : PlainText) :
    bytesOf (text content others).chars ++ rest =
      bytesOf content.chars ++ (bytesOf others.chars ++ rest) := by
  rw [chars, bytes_of_append, List.append_assoc]

/-- A comment in front of a forest is written between its marks. -/
theorem bytes_comment (content : CommentText) :
    bytesOf (comment content others).chars ++ rest =
      byte '<' :: (byte '!' :: byte '-' :: byte '-' :: (bytesOf content.chars ++
        byte '-' :: byte '-' :: byte '>' :: (bytesOf others.chars ++ rest))) := by
  have hopen : bytesOf "<!--".toList = [byte '<', byte '!', byte '-', byte '-'] := by decide
  have hclose : bytesOf "-->".toList = [byte '-', byte '-', byte '>'] := by decide
  simp only [chars, bytes_of_append, hopen, hclose]
  simp only [List.append_assoc, List.cons_append, List.nil_append]

/-- An empty element in front of a forest is written as one tag. -/
theorem bytes_empty :
    bytesOf (empty tag others).chars ++ rest =
      byte '<' :: (bytesOf tag.chars ++
        byte '/' :: byte '>' :: (bytesOf others.chars ++ rest)) := by
  have hopen : bytesOf ['<'] = [byte '<'] := by decide
  have hclose : bytesOf "/>".toList = [byte '/', byte '>'] := by decide
  simp only [chars, bytes_of_append, hopen, hclose]
  simp only [List.append_assoc, List.cons_append, List.nil_append]

/-- An element in front of a forest is written between its tags. -/
theorem bytes_element (inner : Forest) (tail : Gap) :
    bytesOf (element tag inner tail others).chars ++ rest =
      byte '<' :: (bytesOf tag.chars ++ byte '>' :: (bytesOf inner.chars ++
        byte '<' :: tag.endBytes tail (bytesOf others.chars ++ rest))) := by
  have hopen : bytesOf ['<'] = [byte '<'] := by decide
  have hclose : bytesOf ['>'] = [byte '>'] := by decide
  have hend : bytesOf "</".toList = [byte '<', byte '/'] := by decide
  simp only [chars, WrittenTag.endBytes, bytes_of_append, hopen, hclose, hend]
  simp only [List.append_assoc, List.cons_append, List.nil_append]

end bytes

/-- The parser reads a written document up to text in front of what stands behind it, and tells its
elements. Text may stand in front of the document as well. -/
theorem reads (forest : Forest) (before : List UInt8) (hbefore : byte '<' ∉ before)
    (rest : List UInt8) (offset : Nat) (unclosed : List (List UInt8)) :
    ∃ events behind offset', byte '<' ∉ behind ∧
      Parser.Reads ⟨before ++ (bytesOf forest.chars ++ rest), offset, unclosed⟩ events
        ⟨behind ++ rest, offset', unclosed⟩ ∧
      Markup.Event.Tell events forest.elements := by
  -- The text read last is carried along: a piece of text joins it, and the next markup ends it.
  induction forest generalizing before rest offset unclosed with
  | nil => exact ⟨[], before, offset, hbefore, .nil _, .nil⟩
  | text content others ih =>
      have hcontent : byte '<' ∉ bytesOf content.chars := fun hmem =>
        content.plain ((mem_bytes_of_ascii (by decide)).mp hmem)
      obtain ⟨events, behind, offset', hbehind, hreads, htell⟩ :=
        ih (before ++ bytesOf content.chars) (by simp [hbefore, hcontent]) rest offset unclosed
      rw [List.append_assoc, ← bytes_text] at hreads
      exact ⟨events, behind, offset', hbehind, hreads, htell⟩
  | comment content others ih =>
      obtain ⟨position, after, hnext⟩ := Parser.next_eq hbefore
        (scan_comment content (bytesOf others.chars ++ rest)) offset unclosed
      obtain ⟨events, behind, offset', hbehind, hreads, htell⟩ :=
        ih [] (by simp) rest after unclosed
      rw [← bytes_comment] at hnext
      exact ⟨_, behind, offset', hbehind, .cons hnext rfl hreads, htell.other⟩
  | empty tag others ih =>
      obtain ⟨position, after, hnext⟩ := Parser.next_eq hbefore
        (scan_empty tag (bytesOf others.chars ++ rest)) offset unclosed
      obtain ⟨events, behind, offset', hbehind, hreads, htell⟩ :=
        ih [] (by simp) rest after unclosed
      rw [← bytes_empty] at hnext
      exact ⟨_, behind, offset', hbehind, .cons hnext rfl hreads, htell.empty tag position⟩
  | element tag inner tail others hinner hothers =>
      let closing := tag.endBytes tail (bytesOf others.chars ++ rest)
      obtain ⟨position, after, hopened⟩ := Parser.next_eq hbefore
        (scan_opening tag (bytesOf inner.chars ++ byte '<' :: closing)) offset unclosed
      obtain ⟨events, text, middle, htext, hinside, htold⟩ :=
        hinner [] (by simp) (byte '<' :: closing) after (bytesOf tag.nameChars :: unclosed)
      obtain ⟨_, outside, hclosed⟩ := Parser.next_eq htext
        (scan_closing tag tail (bytesOf others.chars ++ rest)) middle
          (bytesOf tag.nameChars :: unclosed)
      obtain ⟨more, behind, offset', hbehind, hreads, htell⟩ :=
        hothers [] (by simp) rest outside unclosed
      -- The name that the start tag leaves open is that of the end tag.
      rw [← bytes_element, Parser.meet, tag.tag_name_eq] at hopened
      rw [Parser.meet_closing] at hclosed
      exact ⟨_, behind, offset', hbehind,
        .cons hopened rfl (hinside.append (.cons hclosed rfl hreads)),
        htold.element tag position htell⟩

/-- What begins with a tag or a comment has no byte order mark. -/
theorem no_mark {bytes : List UInt8}
    (h : Text.Utf8.byteOrderMark.isPrefixOf (byte '<' :: bytes) = true) : False := by
  rw [Text.Utf8.byteOrderMark, List.isPrefixOf_cons_cons, Bool.and_eq_true] at h
  exact absurd h.1 (by decide)

/-- A byte order mark in front of a written document belongs to its text: without it the document is
a written one as well, with the same elements. -/
theorem drop_mark (forest : Forest) : ∃ marked : Forest,
    Text.Utf8.dropMark (bytesOf forest.chars) = bytesOf marked.chars ∧
      ∀ depth, marked.elements depth = forest.elements depth := by
  unfold Text.Utf8.dropMark
  split
  case isFalse => exact ⟨forest, rfl, fun _ => rfl⟩
  case isTrue hmark =>
    induction forest with
    | nil => cases hmark
    | text content others ih =>
        obtain ⟨characters, hplain⟩ := content
        cases characters with
        | nil => exact ih hmark
        | cons c characters =>
            have hothers : '<' ∉ characters := fun hmem => hplain (List.mem_cons_of_mem c hmem)
            exact ⟨text ⟨characters, hothers⟩ others, Text.Utf8.drop_mark_cons hmark, fun _ => rfl⟩
    | comment content others =>
        rw [← List.append_nil (bytesOf _), bytes_comment] at hmark
        exact (no_mark hmark).elim
    | empty tag others =>
        rw [← List.append_nil (bytesOf _), bytes_empty] at hmark
        exact (no_mark hmark).elim
    | element tag inner tail others =>
        rw [← List.append_nil (bytesOf _), bytes_element] at hmark
        exact (no_mark hmark).elim

end Forest

end Xml

namespace Reader

/-- Readers that go on alike answer with the same tags. -/
theorem Answers.congr {reader other : Reader} {tags : List Tag} (hnext : reader.next = other.next)
    (h : other.Answers tags) : reader.Answers tags := by
  cases h with
  | finished hother => exact .finished (hnext.trans hother)
  | tag hother htag hrest => exact .tag (hnext.trans hother) htag hrest

/-- A reader answers the tags of the events that its parser comes across, and then the end, when the
parser gets to the end with no element left open. -/
theorem answers_of_reads {parser final : Parser} {events : List Markup.Event}
    (hreads : parser.Reads events final) (hfinished : final.next.1 = .finished)
    {reader : Reader} (hparser : reader.parser = parser)
    (hclosed : events.foldl Markup.Event.depthBehind reader.openTags = 0) :
    reader.Answers (Markup.Event.tags reader.openTags events) := by
  induction hreads generalizing reader with
  | nil parser =>
      subst hparser
      have hnext : reader.parser.next = (.finished, reader.parser.next.2) := Prod.ext hfinished rfl
      have hopen : reader.openTags = 0 := hclosed
      have hanswer : reader.next.1 = .ok none := by
        rw [next_of_last hnext rfl, hopen]
        rfl
      exact .finished (Prod.ext hanswer rfl)
  | @cons parser after final event events hnext hevent hrest ih =>
      subst hparser
      cases htag : event.tag? reader.openTags with
      | some tag =>
          have hothers : Answers ⟨after, event.depthBehind reader.openTags, some tag⟩ _ :=
            ih hfinished rfl hclosed
          rw [Markup.Event.tags, htag]
          exact .tag (next_of_tag hnext htag) rfl hothers
      | none =>
          have hothers : Answers ⟨after, event.depthBehind reader.openTags, reader.current⟩ _ :=
            ih hfinished rfl hclosed
          rw [Markup.Event.tags, htag]
          exact hothers.congr (next_of_silent hnext hevent htag)

end Reader

/-- The events of a written document. -/
theorem Xml.Forest.document_reads (forest : Forest) :
    ∃ events final, (Parser.ofBytes (Text.Utf8.encode forest.document)).Reads events final ∧
      final.next.1 = .finished ∧ Markup.Event.Tell events forest.elements := by
  obtain ⟨marked, hbytes, helements⟩ := forest.drop_mark
  obtain ⟨events, behind, offset, hbehind, hreads, htell⟩ := marked.reads [] (by simp) [] 0 []
  rw [List.append_nil, List.append_nil, List.nil_append, ← hbytes,
    ← Text.Utf8.encode_of_list] at hreads
  exact ⟨events, ⟨behind, offset, []⟩, hreads, Parser.next_finished hbehind offset,
    fun depth => helements depth ▸ htell.shows depth, htell.balanced⟩

/-- The reading of a written document is complete, and its tags show the elements in their order. -/
theorem Reading.of_written (forest : Forest) :
    let reading := Reading.ofBytes (Text.Utf8.encode forest.document)
    reading.ending = .ok () ∧ List.Forall₂ Tag.Shows reading.tags (forest.elements 0) := by
  obtain ⟨events, final, hreads, hfinished, htell⟩ := forest.document_reads
  rw [Reading.of_bytes_eq hreads (hfinished ▸ rfl), hfinished, htell.balanced]
  exact ⟨rfl, htell.shows 0⟩

/-- Asked for one tag after the other, the reader of a written document answers the elements in the
order of their start tags, with local names, depths and attributes, and then the end of the
document. Every value is the one that was written, whatever its characters, and no other attribute
is there. -/
theorem reader_answers_written (forest : Forest) :
    ∃ tags, (Reader.ofBytes (Text.Utf8.encode forest.document)).Answers tags ∧
      List.Forall₂ Tag.Shows tags (forest.elements 0) := by
  obtain ⟨events, final, hreads, hfinished, htell⟩ := forest.document_reads
  exact ⟨_, Reader.answers_of_reads hreads hfinished rfl (htell.balanced 0), htell.shows 0⟩

end TestMeasures
