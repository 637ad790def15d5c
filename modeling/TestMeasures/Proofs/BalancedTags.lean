import TestMeasures.Proofs.ReaderRoundTrip

/-!
# Documents whose tags need not fit together

A document is a sequence of pieces here: texts, start tags, empty-element tags and end tags in any order.
`Xml.Fitting` says that every end tag has the name of the start tag that was opened last among those that
are still open, and `Xml.Balanced` is the grammar of what is left when no start tag stays open either.
The reader gets to the end of the balanced documents and of no others (`reader_accepts_balanced`): it
stops at the first end tag that does not fit or, where all of them fit, at the end with the number of
start tags that are open there.
-/

namespace TestMeasures

open Xml (Parser Markup byte)
open Text.Utf8 (bytesOf bytes_of_append mem_bytes_of_ascii)

namespace Xml

/-- The characters of a name, with the prefix. -/
def ElementName.chars (name : ElementName) : List Char :=
  qualified name.pre name.base

/-- A piece of a document. An end tag may have white space behind its name. -/
inductive Piece where
  | text (content : PlainText)
  | opening (tag : WrittenTag)
  | empty (tag : WrittenTag)
  | closing (name : ElementName) (tail : Gap)

/-- The names of start tags that are open, the one opened last first. -/
abbrev Unclosed := List (List Char)

namespace Piece

/-- The characters of a piece. -/
def chars : Piece → List Char
  | .text content => content.chars
  | .opening tag => ['<'] ++ tag.chars ++ ['>']
  | .empty tag => ['<'] ++ tag.chars ++ "/>".toList
  | .closing name tail => "</".toList ++ name.chars ++ tail.chars ++ ['>']

/-- The text of a document. -/
def document (pieces : List Piece) : String :=
  String.ofList (pieces.flatMap chars)

/-- The start tags that are open behind a piece. -/
def behind (unclosed : Unclosed) : Piece → Unclosed
  | .text _ | .empty _ => unclosed
  | .opening tag => tag.nameChars :: unclosed
  | .closing _ _ => unclosed.tail

/-- An end tag fits when it has the name of the start tag opened last; everything else fits. -/
def Fits (unclosed : Unclosed) : Piece → Prop
  | .closing name _ => unclosed.head? = some name.chars
  | _ => True

instance (unclosed : Unclosed) : DecidablePred (Fits unclosed)
  | .closing name _ => inferInstanceAs (Decidable (unclosed.head? = some name.chars))
  | .text _ => inferInstanceAs (Decidable True)
  | .opening _ => inferInstanceAs (Decidable True)
  | .empty _ => inferInstanceAs (Decidable True)

/-- The element of a tag, as deep as there are start tags open around it. -/
def element? (unclosed : Unclosed) : Piece → Option Element
  | .opening tag | .empty tag => some (tag.element unclosed.length)
  | _ => none

/-- The markup that a piece is read as, if it is no text. -/
def markup? : Piece → Option Markup
  | .text _ => none
  | .opening tag => some (.opening (bytesOf tag.chars))
  | .empty tag => some (.empty (bytesOf tag.chars))
  | .closing name _ => some (.closing (bytesOf name.chars))

end Piece

/-- The start tags that are open behind pieces. -/
def unclosedBehind (unclosed : Unclosed) (pieces : List Piece) : Unclosed :=
  pieces.foldl Piece.behind unclosed

/-- All end tags fit. -/
def Fitting : Unclosed → List Piece → Prop
  | _, [] => True
  | unclosed, piece :: rest => piece.Fits unclosed ∧ Fitting (piece.behind unclosed) rest

instance : ∀ (unclosed : Unclosed) (pieces : List Piece), Decidable (Fitting unclosed pieces)
  | _, [] => inferInstanceAs (Decidable True)
  | unclosed, piece :: rest =>
    letI := instDecidableFitting (piece.behind unclosed) rest
    inferInstanceAs (Decidable (piece.Fits unclosed ∧ Fitting (piece.behind unclosed) rest))

/-- The elements whose tags are among pieces, in their order. -/
def tagElements : Unclosed → List Piece → List Element
  | _, [] => []
  | unclosed, piece :: rest =>
    (piece.element? unclosed).toList ++ tagElements (piece.behind unclosed) rest

/-- Every start tag has its end tag, with what is balanced by itself between them. -/
inductive Balanced : List Piece → Prop where
  | nil : Balanced []
  | text {rest : List Piece} (content : PlainText) (hrest : Balanced rest) :
      Balanced (.text content :: rest)
  | empty {rest : List Piece} (tag : WrittenTag) (hrest : Balanced rest) : Balanced (.empty tag :: rest)
  | element {inner rest : List Piece} {tag : WrittenTag} {name : ElementName} (tail : Gap)
      (hname : name.chars = tag.nameChars) (hinner : Balanced inner) (hrest : Balanced rest) :
      Balanced (.opening tag :: (inner ++ .closing name tail :: rest))

/-- What is wrong with an end tag that does not fit. -/
def misfit (name : List Char) : Unclosed → IllFormed
  | [] => .unmatchedEnd (bytesOf name)
  | expected :: _ => .mismatchedEnd (bytesOf expected) (bytesOf name)

section grammar

variable {unclosed : Unclosed} {pieces others : List Piece}

/-- What is unclosed behind two sequences of pieces follows from what is behind the first. -/
theorem unclosed_behind_append (unclosed : Unclosed) (pieces others : List Piece) :
    unclosedBehind unclosed (pieces ++ others) =
      unclosedBehind (unclosedBehind unclosed pieces) others :=
  List.foldl_append

/-- Two sequences fit one behind the other if the second fits what the first leaves unclosed. -/
theorem fitting_append (unclosed : Unclosed) (pieces others : List Piece) :
    Fitting unclosed (pieces ++ others) ↔
      Fitting unclosed pieces ∧ Fitting (unclosedBehind unclosed pieces) others := by
  induction pieces generalizing unclosed with
  | nil => simp [Fitting, unclosedBehind]
  | cons piece rest ih => simp only [List.cons_append, Fitting, ih, unclosedBehind, List.foldl_cons, and_assoc]

/-- What is balanced fits wherever it stands, and leaves the start tags open that were open before. -/
theorem Balanced.fitting (h : Balanced pieces) (unclosed : Unclosed) :
    Fitting unclosed pieces ∧ unclosedBehind unclosed pieces = unclosed := by
  induction h generalizing unclosed with
  | nil => exact ⟨trivial, rfl⟩
  | text content _ ih | empty tag _ ih => exact ⟨⟨trivial, (ih unclosed).1⟩, (ih unclosed).2⟩
  | @element inner rest tag name tail hname _ _ ihinner ihrest =>
      obtain ⟨hinner, hopen⟩ := ihinner (tag.nameChars :: unclosed)
      obtain ⟨hrest, hclosed⟩ := ihrest unclosed
      have hend : (Piece.closing name tail).Fits (tag.nameChars :: unclosed) := congrArg some hname.symm
      refine ⟨⟨trivial, (fitting_append ..).mpr ⟨hinner, ?_⟩⟩, ?_⟩
      · change Fitting (unclosedBehind (tag.nameChars :: unclosed) inner) _
        rw [hopen]
        exact ⟨hend, hrest⟩
      · change unclosedBehind (tag.nameChars :: unclosed) (inner ++ _) = unclosed
        rw [unclosed_behind_append, hopen]
        exact hclosed

/-- Pieces that close start tags one after the other, with what is balanced around their end tags. -/
inductive Completes : Unclosed → List Piece → Prop where
  | nil {pieces : List Piece} (h : Balanced pieces) : Completes [] pieces
  | cons {unclosed : Unclosed} {expected : List Char} {inner rest : List Piece} {name : ElementName}
      (tail : Gap) (hname : name.chars = expected) (hinner : Balanced inner)
      (hrest : Completes unclosed rest) :
      Completes (expected :: unclosed) (inner ++ .closing name tail :: rest)

/-- Balanced pieces can be put in front of what completes unclosed tags. -/
theorem Completes.front (h : Completes unclosed pieces) (front : List Piece)
    (hfront : ∀ inner, Balanced inner → Balanced (front ++ inner)) :
    Completes unclosed (front ++ pieces) := by
  cases h with
  | nil h => exact .nil (hfront _ h)
  | cons tail hname hinner hrest =>
      rw [← List.append_assoc]
      exact .cons tail hname (hfront _ hinner) hrest

/-- Fitting pieces that leave nothing unclosed complete the tags that were. -/
theorem completes_of_fitting (hfitting : Fitting unclosed pieces) (hend : unclosedBehind unclosed pieces = []) :
    Completes unclosed pieces := by
  induction pieces generalizing unclosed with
  | nil =>
      obtain rfl : unclosed = [] := hend
      exact .nil .nil
  | cons piece rest ih =>
      obtain ⟨hfits, hfitting⟩ := hfitting
      have hrest := ih hfitting hend
      cases piece with
      | text content => exact hrest.front [_] fun _ => .text content
      | empty tag => exact hrest.front [_] fun _ => .empty tag
      | opening tag =>
          obtain _ | ⟨tail, hname, hinner, houter⟩ := hrest
          have helement := houter.front (.opening tag :: (_ ++ [.closing _ tail])) fun _ hmore => by
            simpa using Balanced.element tail hname hinner hmore
          simpa using helement
      | closing name tail =>
          cases unclosed with
          | nil => cases hfits
          | cons expected outer => exact .cons tail (Option.some.inj hfits).symm .nil hrest

/-- The balanced documents are those whose end tags fit and that leave no start tag open. -/
theorem balanced_iff : Balanced pieces ↔ Fitting [] pieces ∧ unclosedBehind [] pieces = [] := by
  refine ⟨fun h => h.fitting [], fun ⟨hfitting, hend⟩ => ?_⟩
  cases completes_of_fitting hfitting hend with
  | nil h => exact h

/-- Where not all end tags fit, one is the first that does not. -/
theorem exists_misfit (h : ¬ Fitting unclosed pieces) :
    ∃ before name tail after, pieces = before ++ .closing name tail :: after ∧ Fitting unclosed before ∧
      (unclosedBehind unclosed before).head? ≠ some name.chars := by
  induction pieces generalizing unclosed with
  | nil => exact absurd trivial h
  | cons piece rest ih =>
      by_cases hfits : piece.Fits unclosed
      · obtain ⟨before, name, tail, after, rfl, hbefore, hname⟩ := ih fun hrest => h ⟨hfits, hrest⟩
        exact ⟨piece :: before, name, tail, after, rfl, ⟨hfits, hbefore⟩, hname⟩
      · cases piece with
        | closing name tail => exact ⟨[], name, tail, rest, rfl, trivial, hfits⟩
        | text | opening | empty => exact absurd trivial hfits

end grammar

section reading

variable {unclosed : Unclosed}

/-- A piece that is no markup is text. -/
theorem Piece.eq_text {piece : Piece} (h : piece.markup? = none) : ∃ content, piece = .text content := by
  cases piece with
  | text content => exact ⟨content, rfl⟩
  | opening | empty | closing => cases h

/-- A tag begins with its bracket and is found again where it ends. -/
theorem Piece.scan (piece : Piece) {markup : Markup} (h : piece.markup? = some markup) :
    ∃ content, bytesOf piece.chars = byte '<' :: content ∧
      ∀ rest, Markup.scan (content ++ rest) = .ok (markup, rest) := by
  have hopen : bytesOf ['<'] = [byte '<'] := by decide
  have hclose : bytesOf ['>'] = [byte '>'] := by decide
  have hempty : bytesOf "/>".toList = [byte '/', byte '>'] := by decide
  have hend : bytesOf "</".toList = [byte '<', byte '/'] := by decide
  cases piece with
  | text content => cases h
  | opening tag =>
      cases h
      refine ⟨bytesOf tag.chars ++ [byte '>'], ?_, fun rest => ?_⟩
      · rw [chars, bytes_of_append, bytes_of_append, hopen, hclose, List.singleton_append, List.cons_append]
      · rw [List.append_assoc]
        exact scan_opening tag rest
  | empty tag =>
      cases h
      refine ⟨bytesOf tag.chars ++ [byte '/', byte '>'], ?_, fun rest => ?_⟩
      · rw [chars, bytes_of_append, bytes_of_append, hopen, hempty, List.singleton_append, List.cons_append]
      · rw [List.append_assoc]
        exact scan_empty tag rest
  | closing name tail =>
      cases h
      have hscan := scan_closing ⟨name, [], .none, by simp⟩ tail
      refine ⟨byte '/' :: (bytesOf name.chars ++ (bytesOf tail.chars ++ [byte '>'])), ?_, fun rest => ?_⟩
      · simp only [chars, bytes_of_append, hclose, hend, List.append_assoc, List.cons_append,
          List.nil_append]
      · rw [List.cons_append, List.append_assoc, List.append_assoc]
        exact hscan rest

/-- The parser reads over text and meets the tag behind it, at its first byte. -/
theorem Parser.next_piece {piece : Piece} {markup : Markup} (h : piece.markup? = some markup)
    {text : List UInt8} (htext : byte '<' ∉ text) (rest : List UInt8) (offset : Nat)
    (names : List (List UInt8)) :
    next ⟨text ++ (bytesOf piece.chars ++ rest), offset, names⟩ =
      meet ⟨rest, offset + text.length + (bytesOf piece.chars).length, names⟩ (offset + text.length)
        markup := by
  obtain ⟨content, hbytes, hscan⟩ := piece.scan h
  have hbehind : offset + text.length + 1 + ((content ++ rest).length - rest.length) =
      offset + text.length + (bytesOf piece.chars).length := by
    rw [hbytes, List.length_append, List.length_cons]
    omega
  rw [← hbehind, hbytes, List.cons_append, next_at htext (hscan rest)]

/-- Events tell pieces: their tags show the elements among these, and the number of elements open behind
them is that of the start tags open there. -/
structure Markup.Event.TellPieces (unclosed : Unclosed) (events : List Markup.Event) (pieces : List Piece) :
    Prop where
  shows : List.Forall₂ Tag.Shows (tags unclosed.length events) (tagElements unclosed pieces)
  depth : events.foldl depthBehind unclosed.length = (unclosedBehind unclosed pieces).length

/-- A tag that fits is told by one event, and the parser's names go along with the start tags. -/
theorem Parser.meet_fitting {piece : Piece} {markup : Markup} (h : piece.markup? = some markup)
    (hfits : piece.Fits unclosed) (rest : List UInt8) (offset position : Nat) :
    ∃ event, meet ⟨rest, offset, unclosed.map bytesOf⟩ position markup =
        (event, ⟨rest, offset, (piece.behind unclosed).map bytesOf⟩) ∧
      event.isLast = false ∧
      List.Forall₂ Tag.Shows (event.tag? unclosed.length).toList (piece.element? unclosed).toList ∧
      event.depthBehind unclosed.length = (piece.behind unclosed).length := by
  cases piece with
  | text content => cases h
  | opening tag =>
      cases h
      refine ⟨.opened position (bytesOf tag.chars), ?_, rfl,
        .cons (tag.shows position unclosed.length) .nil, rfl⟩
      rw [meet, tag.tag_name_eq]
      rfl
  | empty tag =>
      cases h
      exact ⟨.empty position (bytesOf tag.chars), rfl, rfl,
        .cons (tag.shows position unclosed.length) .nil, rfl⟩
  | closing name tail =>
      cases h
      cases unclosed with
      | nil => cases hfits
      | cons expected outer =>
          obtain rfl : expected = name.chars := Option.some.inj hfits
          exact ⟨.closed, meet_closing .., rfl, .nil, rfl⟩

/-- An end tag that does not fit is a fault at its first byte. -/
theorem Parser.meet_misfit {name : ElementName} (h : unclosed.head? ≠ some name.chars) (rest : List UInt8)
    (offset position : Nat) :
    (meet ⟨rest, offset, unclosed.map bytesOf⟩ position (.closing (bytesOf name.chars))).1 =
      .fault position (.illFormed (misfit name.chars unclosed)) := by
  cases unclosed with
  | nil => rfl
  | cons expected outer =>
      have hne : bytesOf name.chars ≠ bytesOf expected := fun heq =>
        h (congrArg some (Text.Utf8.bytes_of_injective heq).symm)
      simp only [meet, List.map_cons, hne, if_false, misfit]

/-- The parser reads fitting pieces up to text in front of what stands behind them, and tells them. -/
theorem pieces_read (pieces : List Piece) (hfitting : Fitting unclosed pieces) (before : List UInt8)
    (hbefore : byte '<' ∉ before) (rest : List UInt8) (offset : Nat) :
    ∃ events text offset', byte '<' ∉ text ∧
      offset' + text.length = offset + before.length + (bytesOf (pieces.flatMap Piece.chars)).length ∧
      Parser.Reads ⟨before ++ (bytesOf (pieces.flatMap Piece.chars) ++ rest), offset, unclosed.map bytesOf⟩
        events ⟨text ++ rest, offset', (unclosedBehind unclosed pieces).map bytesOf⟩ ∧
      Markup.Event.TellPieces unclosed events pieces := by
  -- The text read last is carried along: a piece of text joins it, and the next tag ends it.
  induction pieces generalizing unclosed before offset with
  | nil => exact ⟨[], before, offset, hbefore, rfl, .nil _, ⟨.nil, rfl⟩⟩
  | cons piece others ih =>
      obtain ⟨hfits, hfitting⟩ := hfitting
      simp only [List.flatMap_cons, bytes_of_append, List.append_assoc, List.length_append]
      cases hmarkup : piece.markup? with
      | none =>
          obtain ⟨content, rfl⟩ := Piece.eq_text hmarkup
          have hcontent : byte '<' ∉ bytesOf content.chars := fun hmem =>
            content.plain ((mem_bytes_of_ascii (by decide)).mp hmem)
          obtain ⟨events, text, offset', htext, hoffset, hreads, htell⟩ :=
            ih hfitting (before ++ bytesOf content.chars) (by simp [hbefore, hcontent]) offset
          rw [List.append_assoc] at hreads
          rw [List.length_append] at hoffset
          exact ⟨events, text, offset', htext, by rw [hoffset, Piece.chars]; omega, hreads,
            ⟨htell.shows, htell.depth⟩⟩
      | some markup =>
          have hnext := Parser.next_piece hmarkup hbefore
            (bytesOf (others.flatMap Piece.chars) ++ rest) offset (unclosed.map bytesOf)
          obtain ⟨event, hmeet, hlast, hshows, hdepth⟩ := Parser.meet_fitting hmarkup hfits
            (bytesOf (others.flatMap Piece.chars) ++ rest)
            (offset + before.length + (bytesOf piece.chars).length) (offset + before.length)
          obtain ⟨events, text, offset', htext, hoffset, hreads, htell⟩ :=
            ih hfitting [] (by simp) (offset + before.length + (bytesOf piece.chars).length)
          refine ⟨event :: events, text, offset', htext, by rw [hoffset]; simp; omega,
            .cons (hnext.trans hmeet) hlast hreads, ?_, ?_⟩
          · rw [Markup.Event.tags, hdepth]
            exact List.rel_append hshows htell.shows
          · rw [List.foldl_cons, hdepth]
            exact htell.depth

/-- A byte order mark ends in front of the first tag. -/
theorem drop_mark_append (bytes : List UInt8) {rest : List UInt8} (h : ∀ b ∈ rest.head?, b = byte '<') :
    Text.Utf8.dropMark (bytes ++ rest) = Text.Utf8.dropMark bytes ++ rest := by
  unfold Text.Utf8.dropMark
  by_cases hmark : Text.Utf8.byteOrderMark.isPrefixOf bytes = true
  · obtain ⟨others, rfl⟩ := List.isPrefixOf_iff_prefix.mp hmark
    rw [List.append_assoc, if_pos (by simp), if_pos (by simp)]
    rfl
  · rw [if_neg hmark, if_neg fun hwhole => hmark ?_]
    rw [List.isPrefixOf_iff_prefix] at hwhole ⊢
    refine (List.prefix_or_prefix_of_prefix hwhole (List.prefix_append bytes rest)).elim id ?_
    -- A mark that reaches into what stands behind has its bracket.
    rintro ⟨reaching, hreaching⟩
    rw [← hreaching, List.prefix_append_right_inj] at hwhole
    cases reaching with
    | nil => exact ⟨[], by simpa using hreaching.symm⟩
    | cons b others =>
        have hmem : b ∈ Text.Utf8.byteOrderMark := hreaching ▸ by simp
        rw [h b (by obtain ⟨more, rfl⟩ := hwhole; rfl)] at hmem
        exact absurd hmem (by decide)

/-- A byte order mark belongs to the text in front of the first tag: without it the document has the same
tags. -/
theorem pieces_drop_mark (pieces : List Piece) : ∃ marked : List Piece,
    Text.Utf8.dropMark (bytesOf (pieces.flatMap Piece.chars)) = bytesOf (marked.flatMap Piece.chars) ∧
      ∀ unclosed, (Fitting unclosed pieces → Fitting unclosed marked) ∧
        unclosedBehind unclosed marked = unclosedBehind unclosed pieces ∧
        tagElements unclosed marked = tagElements unclosed pieces := by
  unfold Text.Utf8.dropMark
  split
  case isFalse => exact ⟨pieces, rfl, fun _ => ⟨id, rfl, rfl⟩⟩
  case isTrue hmark =>
    induction pieces with
    | nil => cases hmark
    | cons piece others ih =>
        cases hmarkup : piece.markup? with
        | some markup =>
            obtain ⟨content, hbytes, -⟩ := piece.scan hmarkup
            rw [List.flatMap_cons, bytes_of_append, hbytes] at hmark
            exact (Forest.no_mark hmark).elim
        | none =>
            obtain ⟨⟨characters, hplain⟩, rfl⟩ := Piece.eq_text hmarkup
            cases characters with
            | nil =>
                obtain ⟨marked, hbytes, hsame⟩ := ih hmark
                refine ⟨marked, hbytes, fun unclosed => ?_⟩
                obtain ⟨hfitting, hopen, helements⟩ := hsame unclosed
                exact ⟨fun h => hfitting h.2, hopen, helements⟩
            | cons c characters =>
                have hothers : '<' ∉ characters := fun hmem => hplain (List.mem_cons_of_mem c hmem)
                refine ⟨.text ⟨characters, hothers⟩ :: others, ?_, fun _ => ⟨id, rfl, rfl⟩⟩
                exact Text.Utf8.drop_mark_cons hmark

end reading

end Xml

namespace Reader

/-- Asked for tag after tag, a reader answers some tags and then the end of the document or what is wrong
with it. -/
inductive Yields : Reader → List Tag → Except ReportFault Unit → Prop where
  | finished {reader after : Reader} (hnext : reader.next = (.ok none, after)) : Yields reader [] (.ok ())
  | failed {reader after : Reader} {fault : ReportFault} (hnext : reader.next = (.error fault, after)) :
      Yields reader [] (.error fault)
  | tag {reader after : Reader} {tag : Tag} {tags : List Tag} {ending : Except ReportFault Unit}
      (hnext : reader.next = (.ok (some tag), after)) (hrest : Yields after tags ending) :
      Yields reader (tag :: tags) ending

variable {reader : Reader} {tags tags' : List Tag} {ending ending' : Except ReportFault Unit}

/-- A reader yields one sequence of tags and one ending. -/
theorem Yields.unique (h : reader.Yields tags ending) (h' : reader.Yields tags' ending') :
    tags = tags' ∧ ending = ending' := by
  induction h generalizing tags' with
  | finished hnext =>
      cases h' with
      | finished => exact ⟨rfl, rfl⟩
      | failed hnext' | tag hnext' => cases hnext.symm.trans hnext'
  | failed hnext =>
      cases h' with
      | failed hnext' => cases hnext.symm.trans hnext'; exact ⟨rfl, rfl⟩
      | finished hnext' | tag hnext' => cases hnext.symm.trans hnext'
  | tag hnext hrest ih =>
      cases h' with
      | finished hnext' | failed hnext' => cases hnext.symm.trans hnext'
      | tag hnext' hrest' =>
          cases hnext.symm.trans hnext'
          obtain ⟨rfl, rfl⟩ := ih hrest'
          exact ⟨rfl, rfl⟩

/-- Readers that answer alike yield the same tags. -/
theorem Yields.congr {other : Reader} (hnext : reader.next = other.next) (h : other.Yields tags ending) :
    reader.Yields tags ending := by
  cases h with
  | finished hother => exact .finished (hnext.trans hother)
  | failed hother => exact .failed (hnext.trans hother)
  | tag hother hrest => exact .tag (hnext.trans hother) hrest

/-- A reader yields the tags of the events that its parser comes across before the last one, and ends as
that says. -/
theorem yields_of_reads {parser final : Parser} {events : List Markup.Event}
    (hreads : parser.Reads events final) (hlast : final.next.1.isLast = true)
    (hparser : reader.parser = parser) :
    reader.Yields (Markup.Event.tags reader.openTags events)
      (final.next.1.ending (events.foldl Markup.Event.depthBehind reader.openTags)) := by
  induction hreads generalizing reader with
  | nil parser =>
      subst hparser
      have hnext : reader.parser.next = (reader.parser.next.1, reader.parser.next.2) := rfl
      have hanswer := next_of_last hnext hlast
      rw [List.foldl_nil, Markup.Event.tags]
      cases hending : reader.parser.next.1.ending reader.openTags with
      | ok => exact .finished (Prod.ext (hanswer.trans (by rw [hending]; rfl)) rfl)
      | error fault => exact .failed (Prod.ext (hanswer.trans (by rw [hending]; rfl)) rfl)
  | @cons parser after final event events hnext hevent hrest ih =>
      subst hparser
      rw [List.foldl_cons, Markup.Event.tags]
      cases htag : event.tag? reader.openTags with
      | some tag =>
          have hothers : Yields ⟨after, event.depthBehind reader.openTags, some tag⟩ _ _ := ih hlast rfl
          exact .tag (next_of_tag hnext htag) hothers
      | none =>
          have hothers : Yields ⟨after, event.depthBehind reader.openTags, reader.current⟩ _ _ :=
            ih hlast rfl
          exact hothers.congr (next_of_silent hnext hevent htag)

end Reader

namespace Xml

section endings

variable {pieces before after : List Piece} {name : ElementName} {tail : Gap}

/-- The reader yields the tags of fitting pieces, and ends as the event does that is the last one behind
them. What stands behind them begins with a bracket, if anything stands there. -/
theorem yields_fitting_front (hfitting : Fitting [] pieces) (rest : List UInt8)
    (hrest : ∀ b ∈ rest.head?, b = byte '<') :
    ∃ text offset tags, byte '<' ∉ text ∧
      offset + text.length = (Text.Utf8.dropMark (Text.Utf8.encode (Piece.document pieces))).length ∧
      List.Forall₂ Tag.Shows tags (tagElements [] pieces) ∧
      ∀ event, (Parser.next ⟨text ++ rest, offset, (unclosedBehind [] pieces).map bytesOf⟩).1 = event →
        event.isLast = true →
        (Reader.ofBytes (bytesOf (pieces.flatMap Piece.chars) ++ rest)).Yields tags
          (event.ending (unclosedBehind [] pieces).length) := by
  obtain ⟨marked, hbytes, hsame⟩ := pieces_drop_mark pieces
  obtain ⟨hmarked, hopen, helements⟩ := hsame []
  obtain ⟨events, text, offset, htext, hoffset, hreads, hshows, hdepth⟩ :=
    pieces_read marked (hmarked hfitting) [] (by simp) rest 0
  rw [hopen] at hreads hdepth
  rw [helements] at hshows
  refine ⟨text, offset, _, htext, ?_, hshows, fun event hevent hlast => ?_⟩
  · rw [Piece.document, Text.Utf8.encode_of_list, hbytes, hoffset]
    simp
  · rw [← hdepth, ← hevent]
    refine Reader.yields_of_reads hreads (by rw [hevent, hlast]) ?_
    rw [Reader.ofBytes, Parser.ofBytes, drop_mark_append _ hrest, hbytes]
    rfl

/-- Where all end tags fit, the reader yields every tag, and then the end or the number of start tags that
are open there. -/
theorem yields_of_fitting (h : Fitting [] pieces) :
    ∃ tags, List.Forall₂ Tag.Shows tags (tagElements [] pieces) ∧
      (Reader.ofBytes (Text.Utf8.encode (Piece.document pieces))).Yields tags
        (if unclosedBehind [] pieces = [] then .ok ()
          else .error (.unclosed (unclosedBehind [] pieces).length)) := by
  obtain ⟨text, offset, tags, htext, -, hshows, hyields⟩ := yields_fitting_front h [] (by simp)
  have hend := hyields .finished (by rw [List.append_nil, Parser.next_finished htext]) rfl
  rw [List.append_nil, ← Text.Utf8.encode_of_list] at hend
  refine ⟨tags, hshows, ?_⟩
  simpa [Markup.Event.ending, List.length_pos_iff, Piece.document] using hend

/-- At the first end tag that does not fit, the reader has yielded the tags before it and tells what is
wrong with it. -/
theorem yields_of_misfit (hbefore : Fitting [] before)
    (hname : (unclosedBehind [] before).head? ≠ some name.chars) :
    ∃ tags, List.Forall₂ Tag.Shows tags (tagElements [] before) ∧
      (Reader.ofBytes (Text.Utf8.encode (Piece.document (before ++ .closing name tail :: after)))).Yields tags
        (.error (.xml (Text.Utf8.dropMark (Text.Utf8.encode (Piece.document before))).length
          (.illFormed (misfit name.chars (unclosedBehind [] before))))) := by
  obtain ⟨content, hbytes, -⟩ := (Piece.closing name tail).scan rfl
  obtain ⟨text, offset, tags, htext, hoffset, hshows, hyields⟩ := yields_fitting_front hbefore
    (bytesOf (Piece.closing name tail).chars ++ bytesOf (after.flatMap Piece.chars))
    (by simp [hbytes])
  refine ⟨tags, hshows, ?_⟩
  rw [← hoffset, Piece.document, Text.Utf8.encode_of_list, List.flatMap_append, List.flatMap_cons,
    bytes_of_append, bytes_of_append]
  refine hyields (.fault _ _) ?_ rfl
  rw [Parser.next_piece rfl htext, Parser.meet_misfit hname]

/-- The reader gets to the end without a fault where all end tags fit and no start tag is left open. -/
theorem finishes_iff :
    (∃ tags, (Reader.ofBytes (Text.Utf8.encode (Piece.document pieces))).Yields tags (.ok ())) ↔
      Fitting [] pieces ∧ unclosedBehind [] pieces = [] := by
  constructor
  · rintro ⟨tags, hyields⟩
    by_cases h : Fitting [] pieces
    · obtain ⟨tags', -, hyields'⟩ := yields_of_fitting h
      obtain ⟨-, hending⟩ := hyields.unique hyields'
      by_contra hopen
      rw [if_neg fun hnone => hopen ⟨h, hnone⟩] at hending
      cases hending
    · obtain ⟨before, name, tail, after, rfl, hbefore, hname⟩ := exists_misfit h
      obtain ⟨tags', -, hyields'⟩ := yields_of_misfit hbefore hname
      obtain ⟨-, hending⟩ := hyields.unique hyields'
      cases hending
  · rintro ⟨h, hnone⟩
    obtain ⟨tags, -, hyields⟩ := yields_of_fitting h
    rw [if_pos hnone] at hyields
    exact ⟨tags, hyields⟩

end endings

end Xml

/-- The reader of a document gets to the end without a fault exactly if the document is balanced: every end
tag has the name of the start tag that was opened last among those still open, and none stays open.
Otherwise it stops at the bracket of the first end tag that does not fit or, where all of them fit, at the
end with the number of start tags that are open there. It has then answered every tag before that place, as
deep as there are start tags open around it. A byte order mark in front is no part of a document. -/
theorem reader_accepts_balanced (pieces : List Xml.Piece) :
    let reader := Reader.ofBytes (Text.Utf8.encode (Xml.Piece.document pieces))
    ((∃ tags, reader.Yields tags (.ok ())) ↔ Xml.Balanced pieces) ∧
    (Xml.Balanced pieces ↔ Xml.Fitting [] pieces ∧ Xml.unclosedBehind [] pieces = []) ∧
    (Xml.Fitting [] pieces → ∃ tags,
      List.Forall₂ Tag.Shows tags (Xml.tagElements [] pieces) ∧
      reader.Yields tags (if Xml.unclosedBehind [] pieces = [] then .ok ()
        else .error (.unclosed (Xml.unclosedBehind [] pieces).length))) ∧
    (¬ Xml.Fitting [] pieces → ∃ before name tail after tags,
      pieces = before ++ .closing name tail :: after ∧ Xml.Fitting [] before ∧
      (Xml.unclosedBehind [] before).head? ≠ some name.chars ∧
      List.Forall₂ Tag.Shows tags (Xml.tagElements [] before) ∧
      reader.Yields tags (.error (.xml
        (Text.Utf8.dropMark (Text.Utf8.encode (Xml.Piece.document before))).length
        (.illFormed (Xml.misfit name.chars (Xml.unclosedBehind [] before)))))) := by
  refine ⟨Xml.finishes_iff.trans Xml.balanced_iff.symm, Xml.balanced_iff, Xml.yields_of_fitting, fun h => ?_⟩
  obtain ⟨before, name, tail, after, rfl, hbefore, hname⟩ := Xml.exists_misfit h
  obtain ⟨tags, hshows, hyields⟩ := Xml.yields_of_misfit hbefore hname
  exact ⟨before, name, tail, after, tags, rfl, hbefore, hname, hshows, hyields⟩

/-- A start tag that stays open behind an element with white space in its end tag. -/
theorem open_tag_counted :
    let a := Xml.WrittenTag.plain "a" [] (by decide)
    let b := Xml.WrittenTag.plain "b" [("k", "<")] (by decide)
    let pieces := [.opening a, .opening b, .text ⟨['>'], by decide⟩,
      .closing b.name ⟨[' '], by simp [Xml.IsSpaceChar]⟩, .empty b]
    Xml.Fitting [] pieces ∧ ∃ tags,
      List.Forall₂ Tag.Shows tags [⟨"a", 0, []⟩, ⟨"b", 1, [("k", "<")]⟩, ⟨"b", 1, [("k", "<")]⟩] ∧
      (Reader.ofBytes (Text.Utf8.encode (Xml.Piece.document pieces))).Yields tags (.error (.unclosed 1)) := by
  intro a b pieces
  have hfitting : Xml.Fitting [] pieces := by decide
  exact ⟨hfitting, (reader_accepts_balanced pieces).2.2.1 hfitting⟩

end TestMeasures
