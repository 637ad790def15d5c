import TestMeasures.Report.Reader

/-!
# The tags of a document

`Xml.Parser.Reads` follows the parser from one piece of markup to the next, without a bound on how many
there are. `Reading.of_bytes_eq` says that the reading of a document has exactly the start tags and
empty-element tags that the parser comes across before it meets the end or a fault, in their order, each
with the number of elements open around it.
-/

namespace TestMeasures

namespace Xml

/-- Behind a tag there is no more than in front of it. -/
theorem span_tag_length {quote : Option UInt8} {bytes content rest : List UInt8}
    (h : spanTag quote bytes = some (content, rest)) : rest.length ≤ bytes.length := by
  induction bytes generalizing quote content with
  | nil => cases quote <;> cases h
  | cons b more ih =>
      cases quote with
      | none =>
          unfold spanTag at h
          split at h
          · obtain ⟨-, rfl⟩ := Prod.mk.inj (Option.some.inj h)
            simp
          · obtain ⟨⟨found, left⟩, hfound, heq⟩ := Option.map_eq_some_iff.mp h
            obtain ⟨-, rfl⟩ := Prod.mk.inj heq
            exact Nat.le_succ_of_le (ih hfound)
      | some open_ =>
          unfold spanTag at h
          obtain ⟨⟨found, left⟩, hfound, heq⟩ := Option.map_eq_some_iff.mp h
          obtain ⟨-, rfl⟩ := Prod.mk.inj heq
          exact Nat.le_succ_of_le (ih hfound)

/-- Behind closing bytes there is no more than in front of them. -/
theorem span_close_length {closes : List UInt8 → Bool} {before bytes content rest : List UInt8}
    (h : spanClose closes before bytes = some (content, rest)) : rest.length ≤ bytes.length := by
  induction bytes generalizing before with
  | nil => cases h
  | cons b more ih =>
      unfold spanClose at h
      split at h
      · obtain ⟨-, rfl⟩ := Prod.mk.inj (Option.some.inj h)
        simp
      · exact Nat.le_succ_of_le (ih h)

/-- Behind a nested declaration there is no more than in front of it. -/
theorem span_balanced_length {depth : Nat} {bytes content rest : List UInt8}
    (h : spanBalanced depth bytes = some (content, rest)) : rest.length ≤ bytes.length := by
  induction bytes generalizing depth content with
  | nil => cases h
  | cons b more ih =>
      unfold spanBalanced at h
      split at h
      · obtain ⟨-, rfl⟩ := Prod.mk.inj (Option.some.inj h)
        simp
      · obtain ⟨⟨found, left⟩, hfound, heq⟩ := Option.map_eq_some_iff.mp h
        obtain ⟨-, rfl⟩ := Prod.mk.inj heq
        exact Nat.le_succ_of_le (ih hfound)

/-- Behind a declaration there is no more than in front of it. -/
theorem scan_declaration_length {bytes rest : List UInt8} {markup : Markup}
    (h : scanDeclaration bytes = .ok (markup, rest)) : rest.length ≤ bytes.length := by
  have hclose : ∀ {closes content left}, spanClose closes [] bytes = some (content, left) →
      left = rest → rest.length ≤ bytes.length := by
    rintro closes content left hspan rfl
    exact span_close_length hspan
  unfold scanDeclaration at h
  split at h
  case h_1 => cases h
  case h_2 =>
    split at h
    case isTrue =>
      split at h
      case h_1 hspan => split at h <;> cases h; exact hclose hspan rfl
      case h_2 => cases h
    case isFalse =>
      split at h
      case isTrue =>
        split at h
        case h_1 hspan => split at h <;> cases h; exact hclose hspan rfl
        case h_2 => cases h
      case isFalse =>
        split at h
        case isTrue =>
          split at h
          case h_1 hspan => split at h <;> cases h; exact span_balanced_length hspan
          case h_2 => cases h
        case isFalse => cases h

/-- Behind an instruction there is no more than in front of it. -/
theorem scan_instruction_length {bytes rest : List UInt8} {markup : Markup}
    (h : scanInstruction bytes = .ok (markup, rest)) : rest.length ≤ bytes.length := by
  unfold scanInstruction at h
  split at h
  case h_1 hspan => split at h <;> cases h; exact span_close_length hspan
  case h_2 => cases h

/-- What is left behind a piece of markup is not longer than what it was read from. -/
theorem scan_length {bytes rest : List UInt8} {markup : Markup}
    (h : Markup.scan bytes = .ok (markup, rest)) : rest.length ≤ bytes.length := by
  unfold Markup.scan at h
  split at h
  case h_1 => cases h
  case h_2 b more =>
    split at h
    case isTrue => exact Nat.le_succ_of_le (scan_declaration_length h)
    case isFalse =>
      split at h
      case isTrue => exact scan_instruction_length h
      case isFalse =>
        split at h
        case isTrue =>
          split at h
          case h_1 hspan => cases h; exact Nat.le_succ_of_le (span_tag_length hspan)
          case h_2 => cases h
        case isFalse =>
          split at h
          case h_1 hspan => cases h; exact span_tag_length hspan
          case h_2 => cases h

namespace Markup.Event

/-- Nothing is read behind the end of a document or a fault. -/
def isLast : Event → Bool
  | .fault _ _ => true
  | .finished => true
  | _ => false

/-- The number of elements that are open behind an event. -/
def depthBehind (depth : Nat) : Event → Nat
  | .opened _ _ => depth + 1
  | .closed => depth - 1
  | _ => depth

/-- The tag of an event, if it is a start tag or an empty-element tag. -/
def tag? (depth : Nat) : Event → Option Tag
  | .opened position content => some (Tag.ofContent content position depth)
  | .empty position content => some (Tag.ofContent content position depth)
  | _ => none

/-- The tags of events in order, each with the number of elements open around it. -/
def tags (depth : Nat) : List Event → List Tag
  | [] => []
  | event :: events => (event.tag? depth).toList ++ tags (event.depthBehind depth) events

/-- How a document ends whose last event leaves so many elements open. -/
def ending (depth : Nat) : Event → Except ReportFault Unit
  | .fault position reason => .error (.xml position reason)
  | _ => if depth > 0 then .error (.unclosed depth) else .ok ()

end Markup.Event

namespace Parser

/-- The parser comes across events, none of them the last one, and gets to another parser. -/
inductive Reads : Parser → List Markup.Event → Parser → Prop where
  | nil (parser : Parser) : Reads parser [] parser
  | cons {parser after final : Parser} {event : Markup.Event} {events : List Markup.Event}
      (hnext : parser.next = (event, after)) (hevent : event.isLast = false)
      (hrest : Reads after events final) : Reads parser (event :: events) final

/-- An event other than the last one is the markup at the next `<`, and the parser moves behind it. -/
theorem next_cases {parser after : Parser} {event : Markup.Event} (h : parser.next = (event, after))
    (hevent : event.isLast = false) :
    ∃ (position : Nat) (markup : Markup) (behind : Parser),
      parser.offset ≤ position ∧ position < behind.offset ∧
      behind.rest.length < parser.rest.length ∧ behind.meet position markup = (event, after) := by
  unfold next at h
  simp only at h
  split at h
  case h_1 => cases h; cases hevent
  case h_2 b bytes hbytes =>
    split at h
    case h_1 => cases h; cases hevent
    case h_2 markup rest hscan =>
      have hlength := scan_length hscan
      have htotal := congrArg List.length hbytes
      rw [List.length_drop, List.length_cons] at htotal
      exact ⟨_, markup, _, Nat.le_add_right _ _, by simp only; omega, by simp only; omega, h⟩

/-- Meeting markup only changes which elements are open, and answers tags where the markup stands. -/
theorem meet_frame {behind after : Parser} {position : Nat} {markup : Markup} {event : Markup.Event}
    (h : behind.meet position markup = (event, after)) :
    after.rest = behind.rest ∧ after.offset = behind.offset ∧
      ∀ depth, ∀ tag ∈ event.tag? depth, tag.position = position := by
  cases markup with
  | opening content | empty content =>
      cases h
      exact ⟨rfl, rfl, fun depth tag htag => by cases htag; rfl⟩
  | other | namelessDoctype =>
      cases h
      exact ⟨rfl, rfl, fun depth tag htag => by cases htag⟩
  | closing name =>
      unfold meet at h
      simp only at h
      split at h
      · cases h
        exact ⟨rfl, rfl, fun depth tag htag => by cases htag⟩
      · split at h <;> cases h <;> exact ⟨rfl, rfl, fun depth tag htag => by cases htag⟩

/-- Every event but the last one takes a byte. -/
theorem next_length {parser after : Parser} {event : Markup.Event} (h : parser.next = (event, after))
    (hevent : event.isLast = false) : after.rest.length < parser.rest.length := by
  obtain ⟨position, markup, behind, -, -, hlength, hmeet⟩ := next_cases h hevent
  rwa [(meet_frame hmeet).1]

/-- The tags that a parser comes across stand at places that increase. -/
theorem Reads.positions {parser final : Parser} {events : List Markup.Event} (h : parser.Reads events final)
    (depth : Nat) : (∀ tag ∈ Markup.Event.tags depth events, parser.offset ≤ tag.position) ∧
      (Markup.Event.tags depth events).Pairwise fun a b => a.position < b.position := by
  induction h generalizing depth with
  | nil => exact ⟨by simp [Markup.Event.tags], .nil⟩
  | @cons parser after final event events hnext hevent hrest ih =>
      obtain ⟨position, markup, behind, hfrom, hto, -, hmeet⟩ := next_cases hnext hevent
      obtain ⟨-, hoffset, hposition⟩ := meet_frame hmeet
      obtain ⟨hlater, hordered⟩ := ih (event.depthBehind depth)
      rw [hoffset] at hlater
      unfold Markup.Event.tags
      cases htag : event.tag? depth with
      | none => exact ⟨fun tag h => by have := hlater tag h; omega, hordered⟩
      | some tag =>
          have hplace := hposition depth tag htag
          refine ⟨fun other hother => ?_, List.pairwise_cons.mpr ⟨fun other hother => ?_, hordered⟩⟩
          · rcases List.mem_cons.mp hother with rfl | hother
            · omega
            · have := hlater other hother
              omega
          · have := hlater other hother
            omega

/-- Every parser comes to a last event. -/
theorem reads_to_last (parser : Parser) :
    ∃ events final, parser.Reads events final ∧ final.next.1.isLast = true := by
  cases hevent : parser.next.1.isLast with
  | true => exact ⟨[], parser, .nil parser, hevent⟩
  | false =>
      have hlength : parser.next.2.rest.length < parser.rest.length := next_length rfl hevent
      obtain ⟨events, final, hreads, hlast⟩ := reads_to_last parser.next.2
      exact ⟨parser.next.1 :: events, final, .cons rfl hevent hreads, hlast⟩
termination_by parser.rest.length

end Parser

end Xml

open Xml (Parser Markup)

namespace Reader

variable {reader : Reader} {after : Parser} {event : Markup.Event}

/-- Fuel beyond the number of bytes makes no difference. -/
theorem next_from_enough {fuel fuel' : Nat} (h : reader.parser.rest.length < fuel)
    (h' : reader.parser.rest.length < fuel') : nextFrom fuel reader = nextFrom fuel' reader := by
  -- Each event but the last takes a byte, so the bytes left stay below the fuel left.
  induction fuel generalizing reader fuel' with
  | zero => cases h
  | succ fuel ih =>
      cases fuel' with
      | zero => cases h'
      | succ fuel' =>
          cases hnext : reader.parser.next with
          | mk event after =>
              simp only [nextFrom, hnext]
              cases hlast : event.isLast with
              | true => cases event <;> first | rfl | cases hlast
              | false =>
                  have hlength := Parser.next_length hnext hlast
                  cases event with
                  | opened | empty => rfl
                  | closed | other => exact ih (by simp only; omega) (by simp only; omega)
                  | fault | finished => cases hlast

/-- A tag is answered. -/
theorem next_of_tag {tag : Tag} (hnext : reader.parser.next = (event, after))
    (htag : event.tag? reader.openTags = some tag) :
    reader.next = (.ok (some tag), ⟨after, event.depthBehind reader.openTags, some tag⟩) := by
  unfold next
  simp only [nextFrom, hnext]
  cases event <;> cases htag <;> rfl

/-- An event that is neither a tag nor the last one is read over. -/
theorem next_of_silent (hnext : reader.parser.next = (event, after)) (hevent : event.isLast = false)
    (htag : event.tag? reader.openTags = none) :
    reader.next = next ⟨after, event.depthBehind reader.openTags, reader.current⟩ := by
  have hlength := Parser.next_length hnext hevent
  unfold next
  rw [nextFrom, hnext]
  cases event with
  | opened | empty => cases htag
  | fault | finished => cases hevent
  | closed | other => exact next_from_enough (by simp only; omega) (by simp only; omega)

/-- At the last event the reader answers how the document ends. -/
theorem next_of_last (hnext : reader.parser.next = (event, after)) (hevent : event.isLast = true) :
    reader.next.1 = (event.ending reader.openTags).map fun _ => none := by
  unfold next
  simp only [nextFrom, hnext]
  cases event with
  | opened | empty | closed | other => cases hevent
  | fault => rfl
  | finished =>
      simp only [meet, Markup.Event.ending]
      split <;> rfl

end Reader

namespace Reading

/-- Reading to the last event collects the tags of all events before it. -/
theorem collect_eq {parser final : Parser} {events : List Markup.Event} (hreads : parser.Reads events final)
    (hlast : final.next.1.isLast = true) {reader : Reader} (hparser : reader.parser = parser) {fuel : Nat}
    (hfuel : parser.rest.length < fuel) :
    collect fuel reader = ⟨Markup.Event.tags reader.openTags events,
      final.next.1.ending (events.foldl Markup.Event.depthBehind reader.openTags)⟩ := by
  induction hreads generalizing reader fuel with
  | nil parser =>
      obtain ⟨fuel, rfl⟩ := Nat.exists_eq_succ_of_ne_zero (Nat.ne_zero_of_lt hfuel)
      subst hparser
      have hnext : reader.parser.next = (reader.parser.next.1, reader.parser.next.2) := rfl
      have hanswer := Reader.next_of_last hnext hlast
      cases hresult : reader.next with
      | mk answer behind =>
          rw [hresult] at hanswer
          obtain rfl : answer = (reader.parser.next.1.ending reader.openTags).map fun _ => none := hanswer
          simp only [collect, hresult, List.foldl_nil, Markup.Event.tags]
          cases reader.parser.next.1.ending reader.openTags <;> rfl
  | @cons parser after final event events hnext hevent hrest ih =>
      obtain ⟨fuel, rfl⟩ := Nat.exists_eq_succ_of_ne_zero (Nat.ne_zero_of_lt hfuel)
      subst hparser
      have hlength := Parser.next_length hnext hevent
      rw [List.foldl_cons, Markup.Event.tags]
      cases htag : event.tag? reader.openTags with
      | some tag =>
          have hothers : collect fuel ⟨after, event.depthBehind reader.openTags, some tag⟩ = _ :=
            ih hlast rfl (by omega)
          simp only [collect, Reader.next_of_tag hnext htag, hothers]
          rfl
      | none =>
          -- Nothing was collected, so the reader reads on with the fuel it had.
          have hothers : collect (fuel + 1) ⟨after, event.depthBehind reader.openTags, reader.current⟩ = _ :=
            ih hlast rfl (by omega)
          rw [collect, Reader.next_of_silent hnext hevent htag]
          exact hothers

/-- The reading of a document has the tags of the events that the parser comes across before the last one,
and ends as that says. -/
theorem of_bytes_eq {bytes : List UInt8} {final : Parser} {events : List Markup.Event}
    (hreads : (Parser.ofBytes bytes).Reads events final) (hlast : final.next.1.isLast = true) :
    ofBytes bytes = ⟨Markup.Event.tags 0 events,
      final.next.1.ending (events.foldl Markup.Event.depthBehind 0)⟩ := by
  refine collect_eq hreads hlast rfl ?_
  unfold Parser.ofBytes Text.Utf8.dropMark
  simp only
  split
  · rw [List.length_drop]
    omega
  · omega

end Reading

end TestMeasures
