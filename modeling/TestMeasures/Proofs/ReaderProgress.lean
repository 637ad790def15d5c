import Mathlib.Data.Nat.Find
import TestMeasures.Proofs.FirstFault
import TestMeasures.Proofs.ReaderRuns

/-!
# A reader gets on

Every tag and every fault of the XML takes a `<`, so a reader gives only so many of them and then one last answer
again and again (`Reader.answers_settle`). A tag that it answers is one that stands in the document, where the tag
says (`Reader.tag_stands`). `reader_settles` puts both together with the place of a tag that rules refuse.
-/

namespace TestMeasures

open Xml (Parser Markup byte)

namespace Xml

variable {bytes content rest : List UInt8}

/-- What is read up to a closing bracket stands in front of that. -/
theorem span_tag_eq {quote : Option UInt8} (h : spanTag quote bytes = some (content, rest)) :
    bytes = content ++ byte '>' :: rest := by
  induction bytes generalizing quote content with
  | nil => cases quote <;> cases h
  | cons b more ih =>
      cases quote with
      | none =>
          rw [spanTag] at h
          split at h
          case isTrue hb =>
            obtain ⟨rfl, rfl⟩ := Prod.mk.inj (Option.some.inj h)
            rw [hb, List.nil_append]
          case isFalse =>
            obtain ⟨⟨found, left⟩, hfound, heq⟩ := Option.map_eq_some_iff.mp h
            obtain ⟨rfl, rfl⟩ := Prod.mk.inj heq
            rw [ih hfound, List.cons_append]
      | some mark =>
          rw [spanTag] at h
          obtain ⟨⟨found, left⟩, hfound, heq⟩ := Option.map_eq_some_iff.mp h
          obtain ⟨rfl, rfl⟩ := Prod.mk.inj heq
          rw [ih hfound, List.cons_append]

/-- What stands in a start tag is followed by its closing bracket, and in an empty-element tag by a slash and
the bracket. -/
theorem tag_of_scan {markup : Markup} (h : Markup.scan bytes = .ok (markup, rest))
    (htag : markup = .opening content ∨ markup = .empty content) :
    bytes = content ++ byte '>' :: rest ∨ bytes = content ++ byte '/' :: byte '>' :: rest := by
  have hkind : ∃ inner, spanTag none bytes = some (inner, rest) ∧ markup = .ofTagContent inner := by
    rcases htag with rfl | rfl
    · exact span_of_scan h ⟨nofun, nofun⟩ nofun
    · exact span_of_scan h ⟨nofun, nofun⟩ nofun
  obtain ⟨inner, hspan, hinner⟩ := hkind
  rw [span_tag_eq hspan]
  unfold Markup.ofTagContent at hinner
  split at hinner
  case isTrue hlast =>
    rcases htag with rfl | rfl
    · cases hinner
    · cases hinner
      obtain ⟨front, rfl⟩ := List.getLast?_eq_some_iff.mp hlast
      rw [List.dropLast_concat, List.append_assoc]
      exact .inr rfl
  case isFalse =>
    rcases htag with rfl | rfl
    · cases hinner
      exact .inl rfl
    · cases hinner

/-- Markup is not the end of a document. -/
theorem Parser.meet_ne_finished (behind : Parser) (position : Nat) (markup : Markup) (after : Parser) :
    behind.meet position markup ≠ (.finished, after) := by
  cases markup with
  | opening | empty | other | namelessDoctype => nofun
  | closing name =>
      unfold meet
      simp only
      split
      · nofun
      · split <;> nofun

end Xml

namespace Reader

/-- Whether an answer tells of markup: it is a tag, or a fault of the XML. -/
def tellsMarkup : Answer → Bool
  | .ok (some _) => true
  | .error (.xml _ _) => true
  | _ => false

/-- What a reader answers at the end of a document, with so many elements open. -/
def finalAnswer (openTags : Nat) : Answer :=
  if openTags > 0 then .error (.unclosed openTags) else .ok none

/-- The final answer of a reader tells no markup. -/
theorem tells_markup_final (openTags : Nat) : tellsMarkup (finalAnswer openTags) = false := by
  unfold finalAnswer
  split <;> rfl

variable {start reader behind : Reader} {passed : List Markup} {answers : List Answer} {ahead : Option Markup}
  {answer : Option Answer}

/-- Meeting an event leaves the parser as it is given. -/
theorem parser_of_meet (reader : Reader) (parser : Parser) (event : Markup.Event) :
    (reader.meet parser event).2.parser = parser := by
  cases event <;> rfl

/-- A step goes on in the bytes, or to their end. -/
theorem Step.goes_on (h : reader.Step ahead answer behind) : reader.parser.offset ≤ behind.parser.offset ∧
    (behind.parser.rest = [] ∨ ∃ taken, reader.parser.rest = taken ++ behind.parser.rest ∧
      behind.parser.offset = reader.parser.offset + taken.length) := by
  obtain ⟨event, parser, hmeets, hmeet⟩ := h
  have hparser := parser_of_meet reader parser event
  rw [hmeet] at hparser
  rw [show behind.parser = parser from hparser]
  cases hmeets with
  | finished | broken => exact ⟨Nat.le_refl _, .inl rfl⟩
  | @markup text bytes rest markup event parser htext hrest hscan hmarkup =>
      obtain ⟨hafter, hoffset, -⟩ := Parser.meet_frame hmarkup
      rw [hafter, hoffset]
      refine ⟨by simp only; omega, .inr ⟨text ++ byte '<' :: bytes, by simp [hrest], ?_⟩⟩
      rw [List.length_append, List.length_cons]
      simp only
      omega

/-- A step whose answer tells of markup takes a bracket. -/
theorem Step.brackets (h : reader.Step ahead answer behind) :
    behind.parser.rest.count (byte '<') + answer.toList.countP tellsMarkup ≤
      reader.parser.rest.count (byte '<') := by
  obtain ⟨event, parser, hmeets, hmeet⟩ := h
  have hparser := parser_of_meet reader parser event
  have hone : answer.toList.countP tellsMarkup ≤ 1 := by
    refine (List.countP_le_length).trans ?_
    cases answer <;> simp
  rw [hmeet] at hparser
  rw [show behind.parser = parser from hparser]
  cases hmeets with
  | finished =>
      cases hmeet
      have hnone := tells_markup_final reader.openTags
      unfold finalAnswer at hnone
      simp [Parser.exhausted, hnone]
  | broken htext hrest =>
      rw [hrest, List.count_append, List.count_cons_self]
      show 0 + _ ≤ _
      omega
  | @markup text bytes rest markup event parser htext hrest hscan hmarkup =>
      obtain ⟨hafter, -, -⟩ := Parser.meet_frame hmarkup
      rw [hafter, hrest, List.count_append, List.count_cons_self, List.count_append]
      simp only
      omega

/-- Every answer that tells of markup takes a `<` from what is left to read. -/
theorem Passes.brackets (h : start.Passes passed answers reader) :
    reader.parser.rest.count (byte '<') + answers.countP tellsMarkup ≤ start.parser.rest.count (byte '<') := by
  induction h with
  | start => simp
  | step h hstep ih =>
      have hless := hstep.brackets
      rw [List.countP_append]
      omega

/-- An answer that does not tell of markup is the last one. -/
theorem Step.final {answer : Answer} (h : reader.Step ahead (some answer) behind)
    (hanswer : tellsMarkup answer = false) :
    answer = finalAnswer behind.openTags ∧ behind.current = none ∧ byte '<' ∉ behind.parser.rest := by
  obtain ⟨event, parser, hmeets, hmeet⟩ := h
  cases hmeets with
  | finished =>
      cases hmeet
      exact ⟨rfl, rfl, by simp [Parser.exhausted]⟩
  | broken =>
      cases hmeet
      cases hanswer
  | markup htext hrest hscan hmarkup =>
      -- What markup is answered by is a tag or a fault.
      cases event with
      | opened | empty | fault =>
          cases hmeet
          cases hanswer
      | closed | other => cases hmeet
      | finished => exact absurd hmarkup (Parser.meet_ne_finished _ _ _ _)

/-- At the end, a reader gives the same answer again and again, and has no current tag. -/
theorem next_at_end (h : byte '<' ∉ reader.parser.rest) :
    reader.next = (finalAnswer reader.openTags, ⟨reader.parser.exhausted, reader.openTags, none⟩) :=
  Step.next_of_answer ⟨.finished, reader.parser.exhausted, .finished h, rfl⟩

/-- Behind its end, a reader stays as it is. -/
theorem after_at_end (h : byte '<' ∉ reader.parser.rest) (calls : Nat) :
    byte '<' ∉ (reader.after calls).parser.rest ∧ (reader.after calls).openTags = reader.openTags := by
  induction calls with
  | zero => exact ⟨h, rfl⟩
  | succ calls ih =>
      obtain ⟨hrest, hopen⟩ := ih
      have hnext := next_at_end hrest
      show byte '<' ∉ (reader.after calls).next.2.parser.rest ∧ (reader.after calls).next.2.openTags = _
      rw [hnext]
      exact ⟨by simp [Parser.exhausted], hopen⟩

/-- So many calls in a row that are answered with a tag or a fault of the XML take as many brackets. -/
theorem calls_le_brackets {calls : Nat} (h : ∀ call < calls, tellsMarkup (start.answer call) = true) :
    calls ≤ start.parser.rest.count (byte '<') := by
  obtain ⟨passed, hpasses⟩ := start.exists_passes calls
  have hbrackets := hpasses.brackets
  have hall : (start.answers calls).countP tellsMarkup = (start.answers calls).length := by
    rw [List.countP_eq_length]
    intro answer hanswer
    obtain ⟨call, hcall, rfl⟩ := List.mem_map.mp hanswer
    exact h call (List.mem_range.mp hcall)
  rw [hall, length_answers] at hbrackets
  omega

/-- A reader gives as many answers about markup, at most, as there are brackets to come, and from then on the
same last answer, without a current tag. -/
theorem answers_settle (start : Reader) : ∃ busy last, busy ≤ start.parser.rest.count (byte '<') ∧
    (∀ call < busy, tellsMarkup (start.answer call) = true) ∧
    ∀ call ≥ busy, start.answer call = finalAnswer last ∧ (start.after (call + 1)).current = none ∧
      (start.after (call + 1)).openTags = last := by
  have hexists : ∃ call, tellsMarkup (start.answer call) = false := by
    by_contra hnone
    have hbusy : ∀ call < start.parser.rest.count (byte '<') + 1, tellsMarkup (start.answer call) = true :=
      fun call _ => Bool.of_not_eq_false fun hfalse => hnone ⟨call, hfalse⟩
    have hle := calls_le_brackets hbusy
    omega
  -- The first call that is not answered by a tag or a fault is answered by the end.
  obtain ⟨busy, hbusy, hlast⟩ : ∃ busy, (∀ call < busy, tellsMarkup (start.answer call) = true) ∧
      tellsMarkup (start.answer busy) = false :=
    ⟨Nat.find hexists, fun call hcall => Bool.of_not_eq_false (Nat.find_min hexists hcall), Nat.find_spec hexists⟩
  obtain ⟨passed, within, ahead, -, hstep⟩ := start.exists_call busy
  obtain ⟨hanswer, hcurrent, hrest⟩ := hstep.final hlast
  refine ⟨busy, (start.after (busy + 1)).openTags, calls_le_brackets hbusy, hbusy, fun call hcall => ?_⟩
  obtain ⟨more, rfl⟩ := Nat.exists_eq_add_of_le hcall
  cases more with
  | zero => exact ⟨hanswer, hcurrent, rfl⟩
  | succ more =>
      obtain ⟨hend, hopen⟩ := after_at_end hrest more
      rw [← after_add] at hend hopen
      have hnext := next_at_end hend
      have hcall : start.answer (busy + 1 + more) = _ := congrArg Prod.fst hnext
      have hafter : start.after (busy + 1 + more + 1) = _ := congrArg Prod.snd hnext
      rw [show busy + (more + 1) = busy + 1 + more by omega, hcall, hafter, hopen]
      exact ⟨rfl, rfl, rfl⟩

end Reader

/-- A tag stands in a document: behind the `<` at its position comes its content up to the end of the tag, which
begins with the qualified name, up to white space if there is any. The tag has the name behind the first colon of
that. -/
structure Tag.StandsIn (tag : Tag) (document : List UInt8) : Prop where
  spelled : ∃ close behind, document.drop tag.position = byte '<' :: (tag.content ++ (close ++ behind)) ∧
    (close = [byte '>'] ∨ close = [byte '/', byte '>'])
  named : ∃ qualified others, tag.content = qualified ++ others ∧ (∀ b ∈ qualified, Xml.isSpace b = false) ∧
    (∀ b ∈ others.head?, Xml.isSpace b = true) ∧
    (byte ':' ∉ qualified ∧ tag.name = Text.Utf8.decodeLossy qualified ∨
      ∃ pre base, byte ':' ∉ pre ∧ qualified = pre ++ byte ':' :: base ∧ tag.name = Text.Utf8.decodeLossy base)

/-- The qualified name of a tag is what stands in front of white space in its content. -/
theorem Tag.named_of_content (content : List UInt8) (position depth : Nat) :
    ∃ qualified others, content = qualified ++ others ∧ (∀ b ∈ qualified, Xml.isSpace b = false) ∧
      (∀ b ∈ others.head?, Xml.isSpace b = true) ∧
      (byte ':' ∉ qualified ∧ (ofContent content position depth).name = Text.Utf8.decodeLossy qualified ∨
        ∃ pre base, byte ':' ∉ pre ∧ qualified = pre ++ byte ':' :: base ∧
          (ofContent content position depth).name = Text.Utf8.decodeLossy base) := by
  refine ⟨Xml.tagName content, content.dropWhile (!Xml.isSpace ·), List.takeWhile_append_dropWhile.symm,
    fun b hb => by simpa using List.mem_takeWhile_imp hb, fun b hb => ?_, ?_⟩
  · have hhead := List.head?_dropWhile_not (!Xml.isSpace ·) content
    rw [Option.mem_def.mp hb] at hhead
    simpa using hhead
  · have hname : (ofContent content position depth).name =
        Text.Utf8.decodeLossy (localName (Xml.tagName content)) := rfl
    rw [hname, localName]
    by_cases hcolon : byte ':' ∈ Xml.tagName content
    · obtain ⟨pre, base, hsplit, hpre⟩ := List.eq_append_cons_of_mem hcolon
      have hplain : ∀ b ∈ pre, (b != byte ':') = true := fun b hb => by
        simpa using fun heq : b = byte ':' => hpre (heq ▸ hb)
      rw [hsplit, List.dropWhile_append_of_pos hplain, List.dropWhile_cons_of_neg (by simp)]
      exact .inr ⟨pre, base, hpre, rfl, rfl⟩
    · have hplain : ∀ b ∈ Xml.tagName content, (b != byte ':') = true := fun b hb => by
        simpa using fun heq : b = byte ':' => hcolon (heq ▸ hb)
      rw [List.dropWhile_eq_nil_iff.mpr hplain]
      exact .inl ⟨hcolon, rfl⟩

namespace Reader

variable {document : List UInt8} {reader behind : Reader} {passed : List Markup} {answers : List Answer}
  {ahead : Option Markup} {tag : Tag}

/-- The tag that is answered to an event is that of the event. -/
theorem meet_tag {parser : Parser} {event : Markup.Event}
    (h : reader.meet parser event = (some (.ok (some tag)), behind)) : event.tag? reader.openTags = some tag := by
  cases event with
  | opened | empty =>
      cases h
      rfl
  | closed | other | fault => cases h
  | finished =>
      have hanswer := congrArg Prod.fst h
      simp only [meet] at hanswer
      split at hanswer <;> cases hanswer

/-- A step that answers a tag finds it in the bytes to come. -/
theorem Step.of_tag (h : reader.Step ahead (some (.ok (some tag))) behind) :
    (ahead = some (.opening tag.content) ∨ ahead = some (.empty tag.content)) ∧
    ∃ text, tag = .ofContent tag.content (reader.parser.offset + text.length) reader.openTags ∧
      reader.parser.offset + text.length < behind.parser.offset ∧
      ∃ close, reader.parser.rest = text ++ byte '<' :: (tag.content ++ (close ++ behind.parser.rest)) ∧
        (close = [byte '>'] ∨ close = [byte '/', byte '>']) := by
  obtain ⟨event, parser, hmeets, hmeet⟩ := h
  have htag := meet_tag hmeet
  have hparser := parser_of_meet reader parser event
  rw [hmeet] at hparser
  rw [show behind.parser = parser from hparser]
  cases hmeets with
  | finished | broken => cases htag
  | @markup text bytes rest markup event parser htext hrest hscan hmarkup =>
      obtain ⟨hkind, hcontent⟩ := Parser.meet_tag hmarkup htag
      obtain ⟨hafter, hoffset, -⟩ := Parser.meet_frame hmarkup
      refine ⟨hkind.imp (congrArg some) (congrArg some), text, hcontent, ?_, ?_⟩
      · rw [hoffset]
        simp only
        omega
      · rw [hrest, hafter]
        rcases Xml.tag_of_scan hscan hkind with hbytes | hbytes
        · exact ⟨[byte '>'], by rw [hbytes]; rfl, .inl rfl⟩
        · exact ⟨[byte '/', byte '>'], by rw [hbytes]; rfl, .inr rfl⟩

/-- What is left to be read is the end of the document. -/
theorem Passes.left (h : (ofBytes document).Passes passed answers reader) : reader.parser.rest = [] ∨
    (Text.Utf8.dropMark document).drop reader.parser.offset = reader.parser.rest := by
  generalize hstart : ofBytes document = start at h
  induction h with
  | start =>
      subst hstart
      exact .inr rfl
  | @step passed answers reader behind ahead answer h hstep ih =>
      obtain ⟨-, hnone | ⟨taken, hrest, hoffset⟩⟩ := hstep.goes_on
      · exact .inl hnone
      · rcases ih with hempty | hleft
        · rw [hempty] at hrest
          exact .inl (List.append_eq_nil_iff.mp hrest.symm).2
        · refine .inr ?_
          rw [hoffset, ← List.drop_drop, hleft, hrest, List.drop_left]

/-- The tags answered so far stand in front of the place that the reader has come to. -/
theorem Passes.tags_before (h : (ofBytes document).Passes passed answers reader) :
    ∀ tag, .ok (some tag) ∈ answers → tag.position < reader.parser.offset := by
  induction h with
  | start => nofun
  | @step passed answers reader behind ahead answer h hstep ih =>
      intro tag htag
      rcases List.mem_append.mp htag with htag | htag
      · exact (ih tag htag).trans_le hstep.goes_on.1
      · cases answer with
        | none => cases htag
        | some answer =>
            obtain rfl := List.mem_singleton.mp htag
            obtain ⟨-, text, hcontent, hbefore, -⟩ := hstep.of_tag
            rw [hcontent]
            exact hbefore

/-- A tag that is answered stands in the document. -/
theorem tag_stands {call : Nat} (h : (ofBytes document).answer call = .ok (some tag)) :
    tag.StandsIn (Text.Utf8.dropMark document) := by
  obtain ⟨passed, within, ahead, hpasses, hstep⟩ := (ofBytes document).exists_call call
  rw [h] at hstep
  obtain ⟨-, text, hcontent, -, close, hrest, hclose⟩ := hstep.of_tag
  have hposition : tag.position = within.parser.offset + text.length := congrArg Tag.position hcontent
  constructor
  · refine ⟨close, (((ofBytes document).after (call + 1)).parser.rest), ?_, hclose⟩
    rcases hpasses.left with hempty | hleft
    · rw [hempty] at hrest
      exact absurd hrest.symm (by simp)
    · rw [hposition, ← List.drop_drop, hleft, hrest, List.drop_left]
  · rw [hcontent]
    exact Tag.named_of_content _ _ _

/-- Tags that are answered stand one behind the other. -/
theorem tags_in_order {call later : Nat} {other : Tag} (hlater : call < later)
    (htag : (ofBytes document).answer call = .ok (some tag))
    (hother : (ofBytes document).answer later = .ok (some other)) : tag.position < other.position := by
  obtain ⟨passed, within, ahead, hpasses, hstep⟩ := (ofBytes document).exists_call later
  rw [hother] at hstep
  obtain ⟨-, text, hcontent, -, -⟩ := hstep.of_tag
  have hbefore := hpasses.tags_before tag (List.mem_map.mpr ⟨call, List.mem_range.mpr hlater, htag⟩)
  rw [hcontent]
  exact hbefore.trans_le (Nat.le_add_right _ _)

end Reader

namespace Reading

/-- The tags that are collected are the answers to the first calls. -/
theorem answers_of_collect {fuel : Nat} {reader : Reader} {done others : List Tag} {tag : Tag}
    (h : (collect fuel reader).tags = done ++ tag :: others) :
    reader.answers done.length = done.map (fun earlier => .ok (some earlier)) ∧
      reader.answer done.length = .ok (some tag) := by
  cases fuel with
  | zero => exact absurd h.symm (by simp [collect])
  | succ fuel =>
      rw [collect] at h
      split at h
      case h_1 | h_2 => exact absurd h.symm (by simp)
      case h_3 first after hnext =>
        cases done with
        | nil =>
            obtain rfl := (List.cons.inj h).1
            exact ⟨rfl, congrArg Prod.fst hnext⟩
        | cons earlier done =>
            obtain ⟨rfl, hrest⟩ := List.cons.inj h
            obtain ⟨hanswers, hanswer⟩ := answers_of_collect hrest
            rw [List.length_cons, Reader.answers_cons, Reader.answer_succ, hnext, hanswers]
            exact ⟨rfl, hanswer⟩

end Reading

/-- A reader answers a tag or a fault of the XML to as many calls, at most, as there are `<` in the document, and
to all later ones the same: the clean end or the number of tags left open, and no tag is current any more. A tag
that it answers stands in the document behind the byte order mark, and tags stand in the order of the answers. A
refused tag that rules report is at the position of the first answered tag whose handler fails. -/
theorem reader_settles (document : List UInt8) :
    let reader := Reader.ofBytes document
    (∃ busy last, busy ≤ document.count (byte '<') ∧
      (∀ call < busy, Reader.tellsMarkup (reader.answer call) = true) ∧
      ∀ call ≥ busy, reader.answer call = Reader.finalAnswer last ∧ (reader.after (call + 1)).current = none) ∧
    (∀ call tag, reader.answer call = .ok (some tag) → tag.StandsIn (Text.Utf8.dropMark document)) ∧
    (∀ call later tag other, call < later → reader.answer call = .ok (some tag) →
      reader.answer later = .ok (some other) → tag.position < other.position) ∧
    ∀ {σ : Type} (rules : Rules σ) (initial : σ) (position : Nat) (fault : TagFault),
      (rules.apply initial (Reading.ofBytes document)).fault = some (.tag position fault) →
      ∃ done tag handler effects state refusal,
        reader.answers done.length = done.map (fun earlier => .ok (some earlier)) ∧
        reader.answer done.length = .ok (some tag) ∧ tag.position = position ∧
        rules.Steps initial done effects state ∧ rules.handler? tag.name = some handler ∧
        handler tag state = .error refusal ∧ refusal.fault = fault := by
  intro reader
  refine ⟨?_, fun call tag => Reader.tag_stands, fun call later tag other => Reader.tags_in_order, ?_⟩
  · obtain ⟨busy, last, hbusy, hbefore, hlast⟩ := reader.answers_settle
    refine ⟨busy, last, hbusy.trans ?_, hbefore, fun call hcall => ⟨(hlast call hcall).1, (hlast call hcall).2.1⟩⟩
    show (Text.Utf8.dropMark document).count (byte '<') ≤ document.count (byte '<')
    unfold Text.Utf8.dropMark
    split
    · exact (List.drop_sublist 3 document).count_le _
    · exact le_rfl
  · intro σ rules initial position fault hfault
    obtain ⟨done, tag, hrefuses⟩ := Rules.refuses_of_fault hfault trivial
    obtain ⟨others, htags⟩ := hrefuses.here
    obtain ⟨hanswers, hanswer⟩ := Reading.answers_of_collect htags
    obtain ⟨hposition, effects, state, handler, refusal, hrefused⟩ := hrefuses.handler
    exact ⟨done, tag, handler, effects, state, refusal, hanswers, hanswer, hposition, hrefused⟩

end TestMeasures
