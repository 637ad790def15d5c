import Mathlib.Data.List.Infix
import TestMeasures.Proofs.ReaderRoundTrip

/-!
# The front of a document

The parser takes a document from the front: `Xml.Parser.Meets` tells what it meets next by the bytes. What it
comes across is decided by those that it has taken (`Xml.Parser.Reads.front`), whatever stands behind them. Hence
`Reading.tags_of_front`: two documents with the same front have the same tags up to any tag that is closed there.
-/

namespace TestMeasures

open Xml (Parser Markup byte)

namespace Xml

variable {β : Type} {scan : List UInt8 → β} {answer : List UInt8 → β} {bytes rest content : List UInt8}

/-- The front of some bytes decides what a scan answers, whatever stands behind it. -/
def FrontDecides (scan : List UInt8 → β) (answer : List UInt8 → β) (bytes rest : List UInt8) : Prop :=
  ∃ front, front ≠ [] ∧ bytes = front ++ rest ∧ ∀ others, scan (front ++ others) = answer others

/-- A scan that takes one byte and goes on with those behind it. -/
theorem FrontDecides.after {γ : Type} {longer : List UInt8 → γ} {result : List UInt8 → γ} {b : UInt8}
    (h : FrontDecides scan answer bytes rest)
    (hscan : ∀ others left, scan others = answer left → longer (b :: others) = result left) :
    FrontDecides longer result (b :: bytes) rest := by
  obtain ⟨front, -, rfl, hanswer⟩ := h
  exact ⟨b :: front, List.cons_ne_nil b front, rfl, fun others => hscan _ _ (hanswer others)⟩

/-- A scan that looks at its first byte and goes on with the same bytes. -/
theorem FrontDecides.same {γ : Type} {longer : List UInt8 → γ} {result : List UInt8 → γ}
    (h : FrontDecides scan answer bytes rest)
    (hscan : ∀ others left, others.head? = bytes.head? → scan others = answer left →
      longer others = result left) : FrontDecides longer result bytes rest := by
  obtain ⟨front, hfront, rfl, hanswer⟩ := h
  refine ⟨front, hfront, rfl, fun others => hscan _ _ ?_ (hanswer others)⟩
  rw [List.head?_append_of_ne_nil _ hfront, List.head?_append_of_ne_nil _ hfront]

/-- A scan that stops at the first byte. -/
theorem front_decides_one {b : UInt8} (h : ∀ others, scan (b :: others) = answer others) :
    FrontDecides scan answer (b :: rest) rest :=
  ⟨[b], List.cons_ne_nil b [], rfl, h⟩

/-- The end of a tag is found in what stands in front of it. -/
theorem span_tag_front {quote : Option UInt8} (h : spanTag quote bytes = some (content, rest)) :
    FrontDecides (spanTag quote) (fun others => some (content, others)) bytes rest := by
  induction bytes generalizing quote content with
  | nil => cases quote <;> cases h
  | cons b more ih =>
      cases quote with
      | none =>
          by_cases hb : b = byte '>'
          · rw [spanTag, if_pos hb] at h
            cases h
            exact front_decides_one fun others => by rw [spanTag, if_pos hb]
          · rw [spanTag, if_neg hb] at h
            obtain ⟨⟨found, left⟩, hfound, heq⟩ := Option.map_eq_some_iff.mp h
            cases heq
            exact (ih hfound).after fun others left hothers => by rw [spanTag, if_neg hb, hothers]; rfl
      | some open_ =>
          rw [spanTag] at h
          obtain ⟨⟨found, left⟩, hfound, heq⟩ := Option.map_eq_some_iff.mp h
          cases heq
          exact (ih hfound).after fun others left hothers => by rw [spanTag, hothers]; rfl

/-- Closing bytes are found in what stands in front of them. -/
theorem span_close_front {closes : List UInt8 → Bool} {before : List UInt8}
    (h : spanClose closes before bytes = some (content, rest)) :
    FrontDecides (spanClose closes before) (fun others => some (content, others)) bytes rest := by
  induction bytes generalizing before with
  | nil => cases h
  | cons b more ih =>
      by_cases hb : (b == byte '>' && closes before) = true
      · rw [spanClose, if_pos hb] at h
        cases h
        exact front_decides_one fun others => by rw [spanClose, if_pos hb]
      · rw [spanClose, if_neg hb] at h
        exact (ih h).after fun others left hothers => by rw [spanClose, if_neg hb, hothers]

/-- The end of a nested declaration is found in what stands in front of it. -/
theorem span_balanced_front {depth : Nat} (h : spanBalanced depth bytes = some (content, rest)) :
    FrontDecides (spanBalanced depth) (fun others => some (content, others)) bytes rest := by
  induction bytes generalizing depth content with
  | nil => cases h
  | cons b more ih =>
      by_cases hb : b = byte '>' ∧ depth = 0
      · rw [spanBalanced, if_pos hb] at h
        cases h
        exact front_decides_one fun others => by rw [spanBalanced, if_pos hb]
      · rw [spanBalanced, if_neg hb] at h
        obtain ⟨⟨found, left⟩, hfound, heq⟩ := Option.map_eq_some_iff.mp h
        cases heq
        exact (ih hfound).after fun others left hothers => by
          rw [spanBalanced, if_neg hb]
          exact congrArg (Option.map _) hothers

/-- A declaration is not a tag, and decided by its own bytes. -/
theorem scan_declaration_front {markup : Markup} (h : scanDeclaration bytes = .ok (markup, rest)) :
    (markup = .other ∨ markup = .namelessDoctype) ∧
      FrontDecides scanDeclaration (fun others => .ok (markup, others)) bytes rest := by
  unfold scanDeclaration at h
  split at h
  case h_1 => cases h
  case h_2 b hb =>
    split at h
    case isTrue hdash =>
      split at h
      case h_1 found left hspan =>
        split at h
        case isTrue hopens =>
          cases h
          refine ⟨.inl rfl, (span_close_front hspan).same fun others left hhead hothers => ?_⟩
          simp only [scanDeclaration, hhead, hb, if_pos hdash, hothers, hopens, if_true]
        case isFalse => cases h
      case h_2 => cases h
    case isFalse hdash =>
      split at h
      case isTrue hbracket =>
        split at h
        case h_1 found left hspan =>
          split at h
          case isTrue hopens =>
            cases h
            refine ⟨.inl rfl, (span_close_front hspan).same fun others left hhead hothers => ?_⟩
            simp only [scanDeclaration, hhead, hb, if_neg hdash, if_pos hbracket, hothers, hopens, if_true]
          case isFalse => cases h
        case h_2 => cases h
      case isFalse hbracket =>
        split at h
        case isTrue hletter =>
          split at h
          case h_1 found left hspan =>
            split at h
            case isTrue hopens =>
              cases h
              refine ⟨?_, (span_balanced_front hspan).same fun others left hhead hothers => ?_⟩
              · split
                · exact .inr rfl
                · exact .inl rfl
              · simp only [scanDeclaration, hhead, hb, if_neg hdash, if_neg hbracket, if_pos hletter,
                  hothers, hopens, if_true]
            case isFalse => cases h
          case h_2 => cases h
        case isFalse => cases h

/-- An instruction is scanned from what stands in front of its end. -/
theorem scan_instruction_front {markup : Markup} (h : scanInstruction bytes = .ok (markup, rest)) :
    FrontDecides scanInstruction (fun others => .ok (markup, others)) bytes rest := by
  unfold scanInstruction at h
  split at h
  case h_1 found left hspan =>
    split at h
    case isTrue hlong =>
      cases h
      refine (span_close_front hspan).same fun others left _ hothers => ?_
      simp only [scanInstruction, hothers, hlong, if_true]
    case isFalse => cases h
  case h_2 => cases h

/-- A piece of markup is decided by its own bytes. -/
theorem scan_front {markup : Markup} (h : Markup.scan bytes = .ok (markup, rest)) :
    FrontDecides Markup.scan (fun others => .ok (markup, others)) bytes rest := by
  unfold Markup.scan at h
  split at h
  case h_1 => cases h
  case h_2 b more =>
    split at h
    case isTrue hmark =>
      refine (scan_declaration_front h).2.after fun others left hothers => ?_
      simp only [Markup.scan, if_pos hmark, hothers]
    case isFalse hmark =>
      split at h
      case isTrue hquestion =>
        refine (scan_instruction_front h).same fun others left hhead hothers => ?_
        obtain ⟨more, rfl⟩ := List.head?_eq_some_iff.mp hhead
        simp only [Markup.scan, if_neg hmark, if_pos hquestion, hothers]
      case isFalse hquestion =>
        split at h
        case isTrue hslash =>
          split at h
          case h_1 content left hspan =>
            cases h
            refine (span_tag_front hspan).after fun others left hothers => ?_
            simp only [Markup.scan, if_neg hmark, if_neg hquestion, if_pos hslash, hothers]
          case h_2 => cases h
        case isFalse hslash =>
          split at h
          case h_1 content left hspan =>
            cases h
            refine (span_tag_front hspan).same fun others left hhead hothers => ?_
            obtain ⟨more, rfl⟩ := List.head?_eq_some_iff.mp hhead
            simp only [Markup.scan, if_neg hmark, if_neg hquestion, if_neg hslash, hothers]
          case h_2 => cases h

/-- Markup that is neither a declaration nor an instruction nor an end tag is the tag of what stands in front of
the first `>` outside quotes. -/
theorem span_of_scan {markup : Markup} (h : Markup.scan bytes = .ok (markup, rest))
    (hother : markup ≠ .other ∧ markup ≠ .namelessDoctype) (hclosing : ∀ name, markup ≠ .closing name) :
    ∃ content, spanTag none bytes = some (content, rest) ∧ markup = .ofTagContent content := by
  unfold Markup.scan at h
  split at h
  case h_1 => cases h
  case h_2 =>
    split at h
    case isTrue =>
      rcases (scan_declaration_front h).1 with rfl | rfl
      · exact absurd rfl hother.1
      · exact absurd rfl hother.2
    case isFalse =>
      split at h
      case isTrue =>
        unfold scanInstruction at h
        split at h
        case h_1 => split at h <;> cases h; exact absurd rfl hother.1
        case h_2 => cases h
      case isFalse =>
        split at h
        case isTrue =>
          split at h
          case h_1 => cases h; exact absurd rfl (hclosing _)
          case h_2 => cases h
        case isFalse =>
          split at h
          case h_1 content left hspan => cases h; exact ⟨content, hspan, rfl⟩
          case h_2 => cases h

namespace Parser

variable {parser after final : Parser} {ahead : Option Markup} {event : Markup.Event} {events : List Markup.Event}

/-- A parser with other bytes to come. -/
def before (parser : Parser) (others : List UInt8) : Parser :=
  { parser with rest := others }

/-- Bytes behind those of a parser do not change what it makes of a markup. -/
theorem meet_before (behind : Parser) (position : Nat) (markup : Markup) (others : List UInt8) :
    (behind.before others).meet position markup =
      ((behind.meet position markup).1, (behind.meet position markup).2.before others) := by
  obtain ⟨rest, offset, unclosed⟩ := behind
  cases markup with
  | opening | empty | other | namelessDoctype => rfl
  | closing name =>
      cases unclosed with
      | nil => rfl
      | cons expected outer =>
          simp only [meet, before]
          split <;> rfl

/-- What a parser meets next: the markup, if there is any that can be read, the event, and the parser behind it. -/
inductive Meets (parser : Parser) : Option Markup → Markup.Event → Parser → Prop where
  | finished (hrest : byte '<' ∉ parser.rest) : Meets parser none .finished parser.exhausted
  | broken {text bytes : List UInt8} {fault : SyntaxFault} (htext : byte '<' ∉ text)
      (hrest : parser.rest = text ++ byte '<' :: bytes) (hscan : Markup.scan bytes = .error fault) :
      Meets parser none (.fault (parser.offset + text.length) (.notSyntax fault)) parser.exhausted
  | markup {text bytes rest : List UInt8} {markup : Markup} {event : Markup.Event} {after : Parser}
      (htext : byte '<' ∉ text) (hrest : parser.rest = text ++ byte '<' :: (bytes ++ rest))
      (hscan : Markup.scan (bytes ++ rest) = .ok (markup, rest))
      (hmeet : meet ⟨rest, parser.offset + text.length + 1 + bytes.length, parser.unclosed⟩
        (parser.offset + text.length) markup = (event, after)) :
      Meets parser (some markup) event after

/-- What a parser meets is what it comes across next. -/
theorem Meets.next_eq (h : parser.Meets ahead event after) : parser.next = (event, after) := by
  obtain ⟨rest, offset, unclosed⟩ := parser
  cases h with
  | finished hrest =>
      have htext := take_text [] hrest (by simp)
      rw [List.append_nil] at htext
      simp only [next, htext, List.drop_length]
  | @broken text bytes fault htext hrest hscan =>
      obtain rfl : rest = _ := hrest
      have htake := take_text (byte '<' :: bytes) htext (by simp)
      simp only [next, htake, List.drop_left, hscan]
  | markup htext hrest hscan hmeet =>
      obtain rfl : rest = _ := hrest
      have hnext := next_at htext hscan offset unclosed
      rw [List.length_append, Nat.add_sub_cancel] at hnext
      exact hnext.trans hmeet

/-- A parser always meets something. -/
theorem exists_meets (parser : Parser) : ∃ ahead, parser.Meets ahead parser.next.1 parser.next.2 := by
  have hexists : ∃ ahead event after, parser.Meets ahead event after := by
    by_cases hnone : byte '<' ∈ parser.rest
    · obtain ⟨text, bytes, hrest, htext⟩ := List.eq_append_cons_of_mem hnone
      cases hscan : Markup.scan bytes with
      | error fault => exact ⟨none, _, _, .broken htext hrest hscan⟩
      | ok found =>
          obtain ⟨markup, rest⟩ := found
          obtain ⟨front, -, rfl, -⟩ := scan_front hscan
          exact ⟨some markup, _, _, .markup htext hrest hscan rfl⟩
    · exact ⟨none, _, _, .finished hnone⟩
  obtain ⟨ahead, event, after, hmeets⟩ := hexists
  rw [hmeets.next_eq]
  exact ⟨ahead, hmeets⟩

/-- An event other than the last one is the markup behind the first `<`. -/
theorem next_markup (h : parser.next = (event, after)) (hevent : event.isLast = false) :
    ∃ (text bytes rest : List UInt8) (markup : Markup), byte '<' ∉ text ∧
      parser.rest = text ++ byte '<' :: (bytes ++ rest) ∧ Markup.scan (bytes ++ rest) = .ok (markup, rest) ∧
      meet ⟨rest, parser.offset + text.length + 1 + bytes.length, parser.unclosed⟩
        (parser.offset + text.length) markup = (event, after) := by
  obtain ⟨ahead, hmeets⟩ := parser.exists_meets
  rw [h] at hmeets
  cases hmeets with
  | finished | broken => cases hevent
  | markup htext hrest hscan hmeet => exact ⟨_, _, _, _, htext, hrest, hscan, hmeet⟩

/-- An event other than the last one is decided by the bytes that the parser takes for it. -/
theorem next_front (h : parser.next = (event, after)) (hevent : event.isLast = false) :
    ∃ front, front ≠ [] ∧ parser.rest = front ++ after.rest ∧
      after.offset = parser.offset + front.length ∧
      ∀ others, (parser.before (front ++ others)).next = (event, after.before others) := by
  obtain ⟨text, bytes, rest, markup, htext, hrest, hscan, hmeet⟩ := next_markup h hevent
  obtain ⟨front, -, heq, hfront⟩ := scan_front hscan
  obtain rfl : front = bytes := (List.append_cancel_right heq).symm
  obtain ⟨hafter, hoffset, -⟩ := meet_frame hmeet
  simp only at hoffset hafter
  refine ⟨text ++ byte '<' :: front, by simp, by simp [hrest, hafter], ?_, fun others => ?_⟩
  · rw [hoffset, List.length_append, List.length_cons]
    omega
  · have hnext := next_at htext (hfront others) parser.offset parser.unclosed
    have hothers := meet_before ⟨rest, parser.offset + text.length + 1 + front.length, parser.unclosed⟩
      (parser.offset + text.length) markup others
    rw [hmeet] at hothers
    rw [List.length_append, Nat.add_sub_cancel] at hnext
    rw [before, List.append_assoc, List.cons_append]
    exact hnext.trans hothers

/-- What the parser comes across is decided by the bytes that it takes. -/
theorem Reads.front (h : parser.Reads events final) :
    ∃ front, parser.rest = front ++ final.rest ∧ final.offset = parser.offset + front.length ∧
      ∀ others, (parser.before (front ++ others)).Reads events (final.before others) := by
  induction h with
  | nil parser => exact ⟨[], rfl, rfl, fun others => .nil _⟩
  | @cons parser after final event events hnext hevent hrest ih =>
      obtain ⟨first, -, hfirst, hoffset, hevery⟩ := next_front hnext hevent
      obtain ⟨front, hfront, hfinal, hreads⟩ := ih
      refine ⟨first ++ front, by rw [hfirst, hfront, List.append_assoc], ?_, fun others => ?_⟩
      · rw [hfinal, hoffset, List.length_append, Nat.add_assoc]
      · have hothers := hevery (front ++ others)
        rw [List.append_assoc]
        exact .cons hothers hevent (hreads others)

/-- The tag of an event is that of a start tag or of an empty-element tag. -/
theorem meet_tag {behind : Parser} {position depth : Nat} {markup : Markup} {tag : Tag}
    (h : behind.meet position markup = (event, after)) (htag : event.tag? depth = some tag) :
    (markup = .opening tag.content ∨ markup = .empty tag.content) ∧
      tag = .ofContent tag.content position depth := by
  cases markup with
  | opening content =>
      cases h
      cases htag
      exact ⟨.inl rfl, rfl⟩
  | empty content =>
      cases h
      cases htag
      exact ⟨.inr rfl, rfl⟩
  | other | namelessDoctype =>
      cases h
      cases htag
  | closing name =>
      unfold meet at h
      simp only at h
      split at h
      · cases h
        cases htag
      · split at h <;> cases h <;> cases htag

/-- The tag of an event reaches from its `<` up to where the parser goes on. -/
theorem next_tag {depth : Nat} {tag : Tag} (h : parser.next = (event, after))
    (htag : event.tag? depth = some tag) :
    ∃ text bytes content, parser.rest = text ++ byte '<' :: bytes ∧
      tag.position = parser.offset + text.length ∧ spanTag none bytes = some (content, after.rest) := by
  have hevent : event.isLast = false := by
    cases event with
    | opened | empty | closed | other => rfl
    | fault | finished => cases htag
  obtain ⟨text, bytes, rest, markup, -, hrest, hscan, hmeet⟩ := next_markup h hevent
  obtain ⟨hafter, -, hposition⟩ := meet_frame hmeet
  have hbehind : after.rest = rest := hafter
  have hspan : ∃ content, spanTag none (bytes ++ rest) = some (content, rest) := by
    rcases (meet_tag hmeet htag).1 with rfl | rfl
    · exact (span_of_scan hscan ⟨nofun, nofun⟩ nofun).imp fun _ => And.left
    · exact (span_of_scan hscan ⟨nofun, nofun⟩ nofun).imp fun _ => And.left
  obtain ⟨content, hspan⟩ := hspan
  exact ⟨text, bytes ++ rest, content, hrest, hposition depth tag htag, hbehind ▸ hspan⟩

/-- The tag of the event behind others stands at its position in the whole document. -/
theorem Reads.tag_span {depth : Nat} {tag : Tag} (hstart : parser.offset = 0)
    (h : parser.Reads events final) (hnext : final.next = (event, after))
    (htag : event.tag? depth = some tag) :
    ∃ content, spanTag none (parser.rest.drop (tag.position + 1)) = some (content, after.rest) := by
  obtain ⟨front, hfront, hoffset, -⟩ := h.front
  obtain ⟨text, bytes, content, hrest, hposition, hspan⟩ := next_tag hnext htag
  have hlength : tag.position + 1 = (front ++ (text ++ [byte '<'])).length := by
    rw [hposition, hoffset, hstart]
    simp [Nat.add_assoc]
  refine ⟨content, ?_⟩
  rw [hfront, hrest, hlength]
  simpa using hspan

/-- A parser that comes across some events and then others comes across the first ones first. -/
theorem Reads.split {others : List Markup.Event} (h : parser.Reads (events ++ others) final) :
    ∃ middle, parser.Reads events middle ∧ middle.Reads others final := by
  induction events generalizing parser with
  | nil => exact ⟨parser, .nil parser, h⟩
  | cons event events ih =>
      cases h with
      | cons hnext hevent hrest =>
          obtain ⟨middle, hreads, hothers⟩ := ih hrest
          exact ⟨middle, .cons hnext hevent hreads, hothers⟩

end Parser

/-- A tag among those of some events belongs to one of them, behind the events of the tags before it. -/
theorem Markup.Event.tags_split {depth : Nat} {events : List Markup.Event} {done others : List Tag}
    {tag : Tag} (h : tags depth events = done ++ tag :: others) :
    ∃ before event behind, events = before ++ event :: behind ∧ tags depth before = done ∧
      event.tag? (before.foldl depthBehind depth) = some tag := by
  induction events generalizing depth done with
  | nil => exact absurd h.symm (by simp [tags])
  | cons event events ih =>
      unfold tags at h
      cases htag : event.tag? depth with
      | none =>
          rw [htag] at h
          obtain ⟨before, found, behind, rfl, hdone, hfound⟩ := ih h
          refine ⟨event :: before, found, behind, rfl, ?_, hfound⟩
          unfold tags
          rw [htag, hdone]
          rfl
      | some first =>
          rw [htag] at h
          cases done with
          | nil =>
              obtain rfl : first = tag := (List.cons.inj h).1
              exact ⟨[], event, events, rfl, rfl, htag⟩
          | cons earlier done =>
              obtain ⟨rfl, hrest⟩ := List.cons.inj h
              obtain ⟨before, found, behind, rfl, hdone, hfound⟩ := ih hrest
              refine ⟨event :: before, found, behind, rfl, ?_, hfound⟩
              unfold tags
              rw [htag, hdone]
              rfl

end Xml

/-- The first `>` outside quotes behind the `<` of a tag stands in a front of the document. -/
def Tag.ClosesIn (tag : Tag) (front : List UInt8) : Prop :=
  (Xml.spanTag none ((Text.Utf8.dropMark front).drop (tag.position + 1))).isSome

instance (tag : Tag) (front : List UInt8) : Decidable (tag.ClosesIn front) :=
  inferInstanceAs (Decidable (_ = true))

/-- A front in which a tag is closed is not a part of a byte order mark. -/
theorem Tag.ClosesIn.drop_mark {tag : Tag} {front : List UInt8} (h : tag.ClosesIn front)
    (behind : List UInt8) :
    Text.Utf8.dropMark (front ++ behind) = Text.Utf8.dropMark front ++ behind := by
  by_cases hfront : Text.Utf8.byteOrderMark.isPrefixOf front
  · obtain ⟨rest, rfl⟩ := List.isPrefixOf_iff_prefix.mp hfront
    rfl
  · have hkept : Text.Utf8.dropMark front = front := if_neg hfront
    have hmarked : ¬ Text.Utf8.byteOrderMark.isPrefixOf (front ++ behind) := by
      intro hmark
      -- Then the front is a part of the mark, which has no tag.
      have hpart : front <+: Text.Utf8.byteOrderMark := by
        rcases List.prefix_or_prefix_of_prefix (List.isPrefixOf_iff_prefix.mp hmark)
          (List.prefix_append front behind) with hprefix | hprefix
        · exact absurd (List.isPrefixOf_iff_prefix.mpr hprefix) hfront
        · exact hprefix
      unfold ClosesIn at h
      rw [hkept] at h
      have hnone : ∀ part ∈ Text.Utf8.byteOrderMark.inits, ∀ count ≤ 3,
          Xml.spanTag none (part.drop (count + 1)) = none := by decide
      by_cases hcount : tag.position ≤ 3
      · rw [hnone front ((List.mem_inits _ _).mpr hpart) _ hcount] at h
        cases h
      · have hlength : front.length ≤ 3 := hpart.length_le
        rw [List.drop_eq_nil_of_le (by omega)] at h
        cases h
    rw [hkept]
    exact if_neg hmarked

/-- What stands behind a tag that is closed in a front is what is left of the front and all that stands
behind the front. -/
theorem Tag.ClosesIn.left {tag : Tag} {front behind content rest : List UInt8} (h : tag.ClosesIn front)
    (hspan : Xml.spanTag none ((Text.Utf8.dropMark (front ++ behind)).drop (tag.position + 1)) =
      some (content, rest)) : ∃ left, rest = left ++ behind := by
  obtain ⟨⟨found, left⟩, hfound⟩ := Option.isSome_iff_exists.mp h
  have hshort : tag.position + 1 ≤ (Text.Utf8.dropMark front).length := by
    by_contra hlong
    rw [List.drop_eq_nil_of_le (by omega)] at hfound
    cases hfound
  obtain ⟨piece, -, hdrop, hevery⟩ := Xml.span_tag_front hfound
  rw [h.drop_mark, List.drop_append_of_le_length hshort, hdrop, List.append_assoc, hevery] at hspan
  exact ⟨left, (congrArg Prod.snd (Option.some.inj hspan)).symm⟩

namespace Reading

/-- Documents with the same front have the same tags up to any tag that is closed there. -/
theorem tags_of_front {front behind : List UInt8} {done others : List Tag} {tag : Tag}
    (h : (ofBytes (front ++ behind)).tags = done ++ tag :: others) (hcloses : tag.ClosesIn front)
    (behind' : List UInt8) : ∃ others', (ofBytes (front ++ behind')).tags = done ++ tag :: others' := by
  obtain ⟨events, final, hreads, hlast⟩ := Parser.reads_to_last (Parser.ofBytes (front ++ behind))
  rw [of_bytes_eq hreads hlast] at h
  obtain ⟨before, event, later, rfl, rfl, htag⟩ := Markup.Event.tags_split h
  obtain ⟨middle, hbefore, hmiddle⟩ := hreads.split
  cases hmiddle with
  | @cons _ after _ _ _ hnext hevent hlater =>
      -- What was taken up to the end of the tag is a part of the front.
      obtain ⟨content, hspan⟩ := hbefore.tag_span rfl hnext htag
      obtain ⟨left, hleft⟩ := hcloses.left hspan
      obtain ⟨taken, htaken, -, hsame⟩ := (hbefore.append (.cons hnext hevent (.nil after))).front
      have hkept : Text.Utf8.dropMark front = taken ++ left := by
        have hall : Text.Utf8.dropMark front ++ behind = taken ++ left ++ behind := by
          rw [← hcloses.drop_mark, List.append_assoc, ← hleft]
          exact htaken
        exact List.append_cancel_right hall
      have hstart : (Parser.ofBytes (front ++ behind)).before (taken ++ (left ++ behind')) =
          Parser.ofBytes (front ++ behind') := by
        rw [← List.append_assoc, ← hkept, ← hcloses.drop_mark]
        rfl
      have hother := hsame (left ++ behind')
      rw [hstart] at hother
      obtain ⟨rest, last, hrest, hends⟩ := Parser.reads_to_last (after.before (left ++ behind'))
      refine ⟨Markup.Event.tags ((before ++ [event]).foldl Markup.Event.depthBehind 0) rest, ?_⟩
      rw [of_bytes_eq (hother.append hrest) hends]
      simp only [Markup.Event.tags_append, Markup.Event.tags, htag, Option.toList_some,
        List.append_assoc, List.singleton_append, List.foldl_append, List.foldl_cons, List.foldl_nil]

end Reading

end TestMeasures
