import TestMeasures.Proofs.BalancedTags
import TestMeasures.Proofs.ReaderRuns
import TestMeasures.Proofs.RuleRuns

/-!
# Documents with replaced values

A `Replacement` says which values of attributes may stand for which others, and `Xml.Rewritten` relates two
documents that differ in such values and in the quotes around them, in any of their tags. All else is bytes, be
they well-formed or not. `Reading.of_rewritten` is what a reader makes of two such documents: as many tags, which
differ in these values alone (`Tag.Alike`), and the same kind of ending.
-/

namespace TestMeasures

open Xml (Parser Markup byte isSpace)

/-- Which values may stand for which others, by the names of the tag and of the attribute. -/
abbrev Replacement := String → String → String → String → Prop

namespace Xml

section relations

/-- What stands in front of the quotes of an attribute: white space, the key, and an equals sign that may have white
space on both sides. The first byte of a key is part of it even if it is an equals sign. -/
structure AttributeFront where
  gap : List UInt8
  key : List UInt8
  before : List UInt8
  behind : List UInt8
  gap_space : ∀ b ∈ gap, isSpace b = true
  nonempty : key ≠ []
  noSpace : ∀ b ∈ key, isSpace b = false
  noEquals : byte '=' ∉ key.tail
  before_space : ∀ b ∈ before, isSpace b = true
  behind_space : ∀ b ∈ behind, isSpace b = true

/-- A value in quotes. -/
structure QuotedValue where
  quote : UInt8
  value : List UInt8
  isQuote : quote = byte '"' ∨ quote = byte '\''
  noQuote : quote ∉ value

/-- The bytes of an attribute and of what stands behind it. -/
def AttributeFront.bytes (front : AttributeFront) (given : QuotedValue) (rest : List UInt8) : List UInt8 :=
  front.gap ++ (front.key ++ (front.before ++ byte '=' :: (front.behind ++
    given.quote :: (given.value ++ given.quote :: rest))))

/-- A value that is a text may be replaced by another one, by the key of the attribute. -/
def ReplacedValue (may : String → String → String → Prop) (key value value' : List UInt8) : Prop :=
  ∃ attributeName text text', key = Text.Utf8.encode attributeName ∧ attributeText value = .ok text ∧
    attributeText value' = .ok text' ∧ may attributeName text text'

/-- What stands behind the name of a tag, with some values replaced. -/
inductive RewrittenAttributes (may : String → String → String → Prop) : List UInt8 → List UInt8 → Prop where
  | same (bytes : List UInt8) : RewrittenAttributes may bytes bytes
  | keep {rest rest' : List UInt8} (front : AttributeFront) (given : QuotedValue)
      (hrest : RewrittenAttributes may rest rest') :
      RewrittenAttributes may (front.bytes given rest) (front.bytes given rest')
  | replace {given given' : QuotedValue} {rest rest' : List UInt8} (front : AttributeFront)
      (hvalue : ReplacedValue may front.key given.value given'.value) (hrest : RewrittenAttributes may rest rest') :
      RewrittenAttributes may (front.bytes given rest) (front.bytes given' rest')

/-- What stands in a tag, with some values replaced. -/
inductive RewrittenContent (may : Replacement) : List UInt8 → List UInt8 → Prop where
  | named {qualified others others' : List UInt8} (hname : ∀ b ∈ qualified, isSpace b = false)
      (hothers : ∀ b ∈ others.head?, isSpace b = true)
      (h : RewrittenAttributes (may (Text.Utf8.decodeLossy (Tag.localName qualified))) others others') :
      RewrittenContent may (qualified ++ others) (qualified ++ others')

/-- A tag with some values replaced. -/
inductive RewrittenTag (may : Replacement) : Markup → Markup → Prop where
  | opening {content content' : List UInt8} (h : RewrittenContent may content content') :
      RewrittenTag may (.opening content) (.opening content')
  | empty {content content' : List UInt8} (h : RewrittenContent may content content') :
      RewrittenTag may (.empty content) (.empty content')

/-- A document with some values replaced in some of its tags. Where nothing more is replaced, the rest may be
anything. -/
inductive Rewritten (may : Replacement) : List UInt8 → List UInt8 → Prop where
  | same (bytes : List UInt8) : Rewritten may bytes bytes
  | keep {text bytes rest rest' : List UInt8} {markup : Markup} (htext : byte '<' ∉ text)
      (hscan : Markup.scan (bytes ++ rest) = .ok (markup, rest)) (hrest : Rewritten may rest rest') :
      Rewritten may (text ++ byte '<' :: (bytes ++ rest)) (text ++ byte '<' :: (bytes ++ rest'))
  | replace {text bytes bytes' rest rest' : List UInt8} {markup markup' : Markup} (htext : byte '<' ∉ text)
      (hscan : Markup.scan (bytes ++ rest) = .ok (markup, rest))
      (hscan' : Markup.scan (bytes' ++ rest') = .ok (markup', rest')) (htag : RewrittenTag may markup markup')
      (hrest : Rewritten may rest rest') :
      Rewritten may (text ++ byte '<' :: (bytes ++ rest)) (text ++ byte '<' :: (bytes' ++ rest'))

end relations

section scanning

/-- What a scan for an attribute comes to when nobody looks at positions. -/
def scanned (rest : Rest) : Option (Option (RawAttribute × List UInt8)) :=
  (scanAttribute rest).map fun answer => answer.toOption.map fun found => (found.1, found.2.bytes)

/-- The place of a value does not matter to what it is and what stands behind it. -/
theorem scan_value_position (key bytes : List UInt8) (position position' : Nat) :
    (scanValue key ⟨position, bytes⟩).toOption.map (fun found => (found.1, found.2.bytes)) =
      (scanValue key ⟨position', bytes⟩).toOption.map fun found => (found.1, found.2.bytes) := by
  simp only [scanValue, Rest.skip]
  cases bytes.drop (bytes.takeWhile isSpace).length with
  | nil => rfl
  | cons quote bytes =>
      simp only
      split
      · cases bytes.drop (bytes.takeWhile (· != quote)).length <;> rfl
      · rfl

/-- A scan for an attribute finds the same wherever the bytes stand in a tag. -/
theorem scanned_position (bytes : List UInt8) (position position' : Nat) :
    scanned ⟨position, bytes⟩ = scanned ⟨position', bytes⟩ := by
  simp only [scanned, scanAttribute, Rest.skip]
  cases bytes.drop (bytes.takeWhile isSpace).length with
  | nil => rfl
  | cons first more =>
      simp only [Rest.tail, List.tail_cons]
      have hlength (start skipped : Nat) : start + 1 + skipped - start - 1 = skipped := by omega
      simp only [hlength]
      generalize more.drop (more.takeWhile fun b => b != byte '=' && !isSpace b).length = behind
      cases behind.drop (behind.takeWhile isSpace).length with
      | nil => rfl
      | cons b after =>
          simp only
          split
          · exact congrArg some (scan_value_position _ after _ _)
          · rfl

/-- Skipping bytes leaves no more of them. -/
theorem skip_length (p : UInt8 → Bool) (rest : Rest) : (rest.skip p).bytes.length ≤ rest.bytes.length := by
  simp [Rest.skip]

/-- A value takes its quotes. -/
theorem scan_value_length {key : List UInt8} {rest after : Rest} {found : RawAttribute}
    (h : scanValue key rest = .ok (found, after)) : after.bytes.length < rest.bytes.length := by
  have hstart := skip_length isSpace rest
  unfold scanValue at h
  simp only at h
  split at h
  case h_1 => cases h
  case h_2 quote bytes hbytes =>
    rw [hbytes, List.length_cons] at hstart
    split at h
    case isFalse => cases h
    case isTrue =>
      split at h
      case h_1 => cases h
      case h_2 b left hleft =>
        obtain ⟨-, rfl⟩ := Prod.mk.inj (Except.ok.inj h)
        have hdrop := congrArg List.length hleft
        rw [List.length_drop, List.length_cons] at hdrop
        simp only
        omega

/-- An attribute takes bytes. -/
theorem scan_attribute_length {rest after : Rest} {found : RawAttribute}
    (h : scanAttribute rest = some (.ok (found, after))) : after.bytes.length < rest.bytes.length := by
  have hstart := skip_length isSpace rest
  unfold scanAttribute at h
  simp only at h
  split at h
  case h_1 => cases h
  case h_2 first more hbytes =>
    split at h
    case h_1 => cases h
    case h_2 b left hequals =>
      split at h
      case isFalse => cases h
      case isTrue =>
        have hvalue := scan_value_length (Option.some.inj h)
        have hbehind := skip_length isSpace ((rest.skip isSpace).tail.skip fun b => b != byte '=' && !isSpace b)
        have hkey := skip_length (fun b => b != byte '=' && !isSpace b) (rest.skip isSpace).tail
        simp only [Rest.tail, hbytes, List.tail_cons, List.length_tail, List.length_cons]
          at hvalue hbehind hkey hstart
        omega

/-- The search for an attribute finds the same wherever the bytes stand in a tag. -/
theorem find_from_position (name : List UInt8) {bytes : List UInt8} {fuel fuel' : Nat} (h : bytes.length ≤ fuel)
    (h' : bytes.length ≤ fuel') (position position' : Nat) :
    (findFrom name fuel ⟨position, bytes⟩).toOption = (findFrom name fuel' ⟨position', bytes⟩).toOption := by
  induction fuel generalizing bytes fuel' position position' with
  | zero =>
      obtain rfl := List.length_eq_zero_iff.mp (Nat.le_zero.mp h)
      cases fuel' <;> rfl
  | succ fuel ih =>
      cases fuel' with
      | zero =>
          obtain rfl := List.length_eq_zero_iff.mp (Nat.le_zero.mp h')
          rfl
      | succ fuel' =>
          have hscan := scanned_position bytes position position'
          unfold scanned at hscan
          rw [findFrom, findFrom]
          cases hfirst : scanAttribute ⟨position, bytes⟩ with
          | none =>
              rw [hfirst] at hscan
              rw [Option.map_eq_none_iff.mp hscan.symm]
          | some answer =>
              rw [hfirst] at hscan
              obtain ⟨answer', hsecond, hsame⟩ := Option.map_eq_some_iff.mp hscan.symm
              rw [hsecond]
              cases answer with
              | error fault =>
                  cases answer' with
                  | error fault' => rfl
                  | ok found' => cases hsame
              | ok found =>
                  cases answer' with
                  | error fault' => cases hsame
                  | ok found' =>
                      obtain ⟨found, after⟩ := found
                      obtain ⟨found', after'⟩ := found'
                      have hless := scan_attribute_length hfirst
                      obtain ⟨rfl, hbytes⟩ := Prod.mk.inj (Option.some.inj hsame)
                      obtain ⟨place, left⟩ := after
                      obtain ⟨place', left'⟩ := after'
                      obtain rfl : left' = left := hbytes
                      simp only at hless ⊢
                      split
                      · rfl
                      · exact ih (by omega) (by omega) place place'

end scanning

section searching

variable {may : String → String → String → Prop} {bytes bytes' name : List UInt8} {fuel fuel' : Nat}

/-- An attribute that is written behind its front is scanned with its key and value. -/
theorem AttributeFront.scan (front : AttributeFront) (given : QuotedValue) (rest : List UInt8) (position : Nat) :
    ∃ next, scanAttribute ⟨position, front.bytes given rest⟩ =
      some (.ok (⟨front.key, given.value⟩, ⟨next, rest⟩)) :=
  scan_attribute rest position front.gap_space front.nonempty front.noSpace front.noEquals front.before_space
    front.behind_space given.isQuote given.noQuote

/-- The search looks at an attribute and goes on behind it, unless it is the wanted one. -/
theorem AttributeFront.find (front : AttributeFront) (given : QuotedValue) {rest : List UInt8}
    (hfuel : (front.bytes given rest).length ≤ fuel) (name : List UInt8) (position : Nat) :
    ∃ left next, rest.length ≤ left ∧ findFrom name fuel ⟨position, front.bytes given rest⟩ =
      if front.key = name then .ok (some given.value) else findFrom name left ⟨next, rest⟩ := by
  obtain ⟨next, hscan⟩ := front.scan given rest position
  have hlength : rest.length < (front.bytes given rest).length := scan_attribute_length hscan
  cases fuel with
  | zero => omega
  | succ fuel =>
      refine ⟨fuel, next, by omega, ?_⟩
      rw [findFrom, hscan]

/-- The search among rewritten attributes finds the same, or a value and its replacement. -/
theorem RewrittenAttributes.find (h : RewrittenAttributes may bytes bytes') (hfuel : bytes.length ≤ fuel)
    (hfuel' : bytes'.length ≤ fuel') (name : List UInt8) (position position' : Nat) :
    (findFrom name fuel ⟨position, bytes⟩).toOption = (findFrom name fuel' ⟨position', bytes'⟩).toOption ∨
      ∃ value value', findFrom name fuel ⟨position, bytes⟩ = .ok (some value) ∧
        findFrom name fuel' ⟨position', bytes'⟩ = .ok (some value') ∧ ReplacedValue may name value value' := by
  induction h generalizing fuel fuel' position position' with
  | same bytes => exact .inl (find_from_position name hfuel hfuel' position position')
  | keep front given hrest ih =>
      obtain ⟨left, next, hleft, hfind⟩ := front.find given hfuel name position
      obtain ⟨left', next', hleft', hfind'⟩ := front.find given hfuel' name position'
      rw [hfind, hfind']
      split
      · exact .inl rfl
      · exact ih hleft hleft' next next'
  | @replace given given' rest rest' front hvalue hrest ih =>
      obtain ⟨left, next, hleft, hfind⟩ := front.find given hfuel name position
      obtain ⟨left', next', hleft', hfind'⟩ := front.find given' hfuel' name position'
      rw [hfind, hfind']
      split
      case isTrue hkey => exact .inr ⟨_, _, rfl, rfl, hkey ▸ hvalue⟩
      case isFalse => exact ih hleft hleft' next next'

/-- Rewritten attributes start with the same byte. -/
theorem RewrittenAttributes.head (h : RewrittenAttributes may bytes bytes') : bytes'.head? = bytes.head? := by
  have hfront (front : AttributeFront) (given given' : QuotedValue) (rest rest' : List UInt8) :
      (front.bytes given' rest').head? = (front.bytes given rest).head? := by
    obtain ⟨first, more, hkey⟩ := List.exists_cons_of_ne_nil front.nonempty
    unfold AttributeFront.bytes
    rw [hkey]
    cases front.gap <;> rfl
  cases h with
  | same bytes => rfl
  | keep front given hrest => exact hfront front given given _ _
  | replace front hvalue hrest => exact hfront front _ _ _ _

end searching

end Xml

/-- A fault without the words for what is wrong with a value, which may tell a place in the tag. -/
def TagFault.kind : TagFault → TagFault
  | .missing tag name => .missing tag name
  | .malformed tag name value _ => .malformed tag name value ""

/-- A fault without its place in the document. -/
def ReportFault.kind : ReportFault → ReportFault
  | .xml _ fault => .xml 0 fault
  | .tag _ fault => .tag 0 fault.kind
  | fault => fault

/-- Two answers come to the same: they are related, or they are faults of the same kind. -/
inductive SameAnswer {α β : Type} (relates : α → β → Prop) : Except TagFault α → Except TagFault β → Prop where
  | ok {a : α} {b : β} (h : relates a b) : SameAnswer relates (.ok a) (.ok b)
  | error {fault fault' : TagFault} (h : fault'.kind = fault.kind) : SameAnswer relates (.error fault) (.error fault')

/-- Two tags differ in values that may be replaced, and in their places. -/
structure Tag.Alike (may : Replacement) (tag other : Tag) : Prop where
  name : other.name = tag.name
  depth : other.depth = tag.depth
  optional : ∀ attributeName, SameAnswer
    (Option.Rel fun text text' => text' = text ∨ may tag.name attributeName text text')
    (tag.optional attributeName) (other.optional attributeName)

namespace Xml

section tags

variable {may : Replacement} {content content' : List UInt8}

/-- The name of a tag is what stands in front of its attributes. -/
theorem tag_name_append {qualified others : List UInt8} (hname : ∀ b ∈ qualified, isSpace b = false)
    (hothers : ∀ b ∈ others.head?, isSpace b = true) : tagName (qualified ++ others) = qualified :=
  take_while_append (fun b hb => by simp [hname b hb]) fun b hb => by simp [hothers b hb]

/-- A rewritten tag keeps its name. -/
theorem RewrittenContent.tag_name (h : RewrittenContent may content content') :
    tagName content' = tagName content := by
  cases h with
  | named hname hothers h => rw [tag_name_append hname hothers, tag_name_append hname (h.head ▸ hothers)]

/-- Every attribute of a rewritten tag has the value that it had, or one that may stand for that. -/
theorem RewrittenContent.alike (h : RewrittenContent may content content') (position position' depth : Nat) :
    (Tag.ofContent content position depth).Alike may (Tag.ofContent content' position' depth) := by
  have hsame : Text.Utf8.decodeLossy (Tag.localName (tagName content')) =
      Text.Utf8.decodeLossy (Tag.localName (tagName content)) := by rw [h.tag_name]
  refine ⟨hsame, rfl, fun attributeName => ?_⟩
  have hfound : (findAttribute content (Text.Utf8.encode attributeName)).toOption =
      (findAttribute content' (Text.Utf8.encode attributeName)).toOption ∨
      ∃ value value', findAttribute content (Text.Utf8.encode attributeName) = .ok (some value) ∧
        findAttribute content' (Text.Utf8.encode attributeName) = .ok (some value') ∧
        ReplacedValue (may (Text.Utf8.decodeLossy (Tag.localName (tagName content))))
          (Text.Utf8.encode attributeName) value value' := by
    cases h with
    | @named qualified others others' hname hothers h =>
        simp only [findAttribute, tag_name_append hname hothers, tag_name_append hname (h.head ▸ hothers),
          List.drop_left]
        exact h.find (by simp) (by simp) _ _ _
  unfold Tag.optional Tag.malformed Tag.ofContent
  simp only [hsame]
  rcases hfound with hfound | ⟨value, value', hvalue, hvalue', other, text, text', hkey, htext, htext', hmay⟩
  · cases hfirst : findAttribute content (Text.Utf8.encode attributeName) with
    | error fault =>
        cases hsecond : findAttribute content' (Text.Utf8.encode attributeName) with
        | error fault' => exact .error rfl
        | ok found' =>
            rw [hfirst, hsecond] at hfound
            cases hfound
    | ok found =>
        rw [hfirst] at hfound
        rw [to_option_eq_some_iff.mp hfound.symm]
        cases found with
        | none => exact .ok .none
        | some raw =>
            simp only
            cases attributeText raw with
            | ok text => exact .ok (.some (.inl rfl))
            | error fault => exact .error rfl
  · obtain rfl : attributeName = other := String.toList_injective (Text.Utf8.bytes_of_injective hkey)
    simp only [hvalue, hvalue', htext, htext']
    exact .ok (.some (.inr hmay))

end tags

end Xml

namespace Xml

section events

variable {may : Replacement}

/-- What a parser comes across where it came across something else: tags may be rewritten, and places differ. -/
inductive RewrittenEvent (may : Replacement) : Markup.Event → Markup.Event → Prop where
  | opened {position position' : Nat} {content content' : List UInt8} (h : RewrittenContent may content content') :
      RewrittenEvent may (.opened position content) (.opened position' content')
  | empty {position position' : Nat} {content content' : List UInt8} (h : RewrittenContent may content content') :
      RewrittenEvent may (.empty position content) (.empty position' content')
  | closed : RewrittenEvent may .closed .closed
  | other : RewrittenEvent may .other .other
  | fault {position position' : Nat} (fault : XmlFault) :
      RewrittenEvent may (.fault position fault) (.fault position' fault)
  | finished : RewrittenEvent may .finished .finished

/-- Two parsers are at the same place of documents with replaced values. -/
structure Parser.Alike (may : Replacement) (parser other : Parser) : Prop where
  rest : Rewritten may parser.rest other.rest
  unclosed : other.unclosed = parser.unclosed

/-- Content is rewritten as itself. -/
theorem RewrittenContent.refl (may : Replacement) (content : List UInt8) : RewrittenContent may content content := by
  have hname : ∀ b ∈ content.takeWhile (!isSpace ·), isSpace b = false := fun b hb => by
    simpa using List.mem_takeWhile_imp hb
  have hothers : ∀ b ∈ (content.dropWhile (!isSpace ·)).head?, isSpace b = true := fun b hb => by
    have hhead := List.head?_dropWhile_not (!isSpace ·) content
    rw [Option.mem_def.mp hb] at hhead
    simpa using hhead
  have h := @RewrittenContent.named may _ _ _ hname hothers (.same _)
  rwa [List.takeWhile_append_dropWhile] at h

variable {rest rest' : List UInt8}

/-- The same markup amounts to the same wherever it stands. -/
theorem meet_same (markup : Markup) (hrest : Rewritten may rest rest') (unclosed : List (List UInt8))
    (offset offset' position position' : Nat) :
    let met := Parser.meet ⟨rest, offset, unclosed⟩ position markup
    let other := Parser.meet ⟨rest', offset', unclosed⟩ position' markup
    RewrittenEvent may met.1 other.1 ∧ met.2.Alike may other.2 := by
  cases markup with
  | opening content => exact ⟨.opened (.refl may content), hrest, rfl⟩
  | empty content => exact ⟨.empty (.refl may content), hrest, rfl⟩
  | other => exact ⟨.other, hrest, rfl⟩
  | namelessDoctype => exact ⟨.fault _, hrest, rfl⟩
  | closing name =>
      unfold Parser.meet
      simp only
      split
      case h_1 => exact ⟨.fault _, hrest, rfl⟩
      case h_2 expected outer =>
        split
        · exact ⟨.closed, hrest, rfl⟩
        · exact ⟨.fault _, hrest, rfl⟩

/-- A rewritten tag opens an element of the same name, if it opens any. -/
theorem meet_rewritten {markup markup' : Markup} (htag : RewrittenTag may markup markup')
    (hrest : Rewritten may rest rest') (unclosed : List (List UInt8)) (offset offset' position position' : Nat) :
    let met := Parser.meet ⟨rest, offset, unclosed⟩ position markup
    let other := Parser.meet ⟨rest', offset', unclosed⟩ position' markup'
    RewrittenEvent may met.1 other.1 ∧ met.2.Alike may other.2 := by
  cases htag with
  | opening hcontent => exact ⟨.opened hcontent, hrest, congrArg (· :: unclosed) hcontent.tag_name⟩
  | empty hcontent => exact ⟨.empty hcontent, hrest, rfl⟩

/-- Where nothing is replaced any more, it only matters what is left. -/
theorem next_same (may : Replacement) (rest : List UInt8) (unclosed : List (List UInt8)) (offset offset' : Nat) :
    let met := Parser.next ⟨rest, offset, unclosed⟩
    let other := Parser.next ⟨rest, offset', unclosed⟩
    RewrittenEvent may met.1 other.1 ∧ met.2.Alike may other.2 := by
  intro met other
  obtain ⟨ahead, hmeets⟩ := Parser.exists_meets ⟨rest, offset, unclosed⟩
  change Parser.Meets _ ahead met.1 met.2 at hmeets
  generalize met.1 = event, met.2 = after at hmeets ⊢
  cases hmeets with
  | finished hrest =>
      rw [show other = _ from (@Parser.Meets.finished ⟨rest, offset', unclosed⟩ hrest).next_eq]
      exact ⟨.finished, .same _, rfl⟩
  | broken htext hrest hscan =>
      rw [show other = _ from (@Parser.Meets.broken ⟨rest, offset', unclosed⟩ _ _ _ htext hrest hscan).next_eq]
      exact ⟨.fault _, .same _, rfl⟩
  | @markup text bytes left markup _ _ htext hrest hscan hmeet =>
      have hother := (@Parser.Meets.markup ⟨rest, offset', unclosed⟩ _ _ _ _ _ _ htext hrest hscan rfl).next_eq
      rw [show other = _ from hother]
      have hsame := meet_same markup (.same left : Rewritten may left left) unclosed
        (offset + text.length + 1 + bytes.length) (offset' + text.length + 1 + bytes.length)
        (offset + text.length) (offset' + text.length)
      simp only [hmeet] at hsame
      exact hsame

/-- Parsers at the same place come across the same, up to replaced values, and get to the same place. -/
theorem Parser.Alike.next {parser other : Parser} (h : parser.Alike may other) :
    RewrittenEvent may parser.next.1 other.next.1 ∧ parser.next.2.Alike may other.next.2 := by
  obtain ⟨bytes, offset, unclosed⟩ := parser
  obtain ⟨bytes', offset', unclosed'⟩ := other
  obtain ⟨hbytes, hunclosed⟩ := h
  obtain rfl : unclosed' = unclosed := hunclosed
  cases hbytes with
  | same => exact next_same may bytes unclosed' offset offset'
  | @keep text bytes rest rest' markup htext hscan hrest =>
      obtain ⟨front, -, hfront, hevery⟩ := scan_front hscan
      obtain rfl : bytes = front := List.append_cancel_right hfront
      rw [(Meets.markup htext rfl hscan rfl).next_eq, (Meets.markup htext rfl (hevery rest') rfl).next_eq]
      exact meet_same markup hrest _ _ _ _ _
  | @replace text bytes bytes' rest rest' markup markup' htext hscan hscan' htag hrest =>
      rw [(Meets.markup htext rfl hscan rfl).next_eq, (Meets.markup htext rfl hscan' rfl).next_eq]
      exact meet_rewritten htag hrest _ _ _ _ _

variable {event event' : Markup.Event} {events events' : List Markup.Event}

/-- A rewritten event is the last one exactly when the event was. -/
theorem RewrittenEvent.last (h : RewrittenEvent may event event') : event'.isLast = event.isLast := by
  cases h <;> rfl

/-- A rewritten event leads to the same depth. -/
theorem RewrittenEvent.depth_behind (h : RewrittenEvent may event event') (depth : Nat) :
    event'.depthBehind depth = event.depthBehind depth := by
  cases h <;> rfl

/-- A rewritten event ends a report in the same kind of way. -/
theorem RewrittenEvent.ending (h : RewrittenEvent may event event') (depth : Nat) :
    (event'.ending depth).mapError ReportFault.kind = (event.ending depth).mapError ReportFault.kind := by
  cases h <;> rfl

/-- The tag of a rewritten event is like that of the event. -/
theorem RewrittenEvent.tags (h : RewrittenEvent may event event') (depth : Nat) :
    List.Forall₂ (Tag.Alike may) (event.tag? depth).toList (event'.tag? depth).toList := by
  cases h with
  | opened hcontent | empty hcontent => exact .cons (hcontent.alike _ _ depth) .nil
  | closed | other | fault | finished => exact .nil

/-- The tags of rewritten events are alike one by one, and as many elements are open behind them. -/
theorem tags_rewritten (h : List.Forall₂ (RewrittenEvent may) events events') (depth : Nat) :
    List.Forall₂ (Tag.Alike may) (Markup.Event.tags depth events) (Markup.Event.tags depth events') ∧
      events'.foldl Markup.Event.depthBehind depth = events.foldl Markup.Event.depthBehind depth := by
  induction h generalizing depth with
  | nil => exact ⟨.nil, rfl⟩
  | @cons event event' events events' hevent _ ih =>
      obtain ⟨htags, hdepth⟩ := ih (event.depthBehind depth)
      rw [Markup.Event.tags, Markup.Event.tags, List.foldl_cons, List.foldl_cons, hevent.depth_behind]
      exact ⟨List.rel_append (hevent.tags depth) htags, hdepth⟩

/-- Parsers at the same place come across the same up to replaced values, event by event. -/
theorem Parser.Reads.rewritten {parser final other : Parser} (h : parser.Reads events final)
    (hother : parser.Alike may other) : ∃ events' final', other.Reads events' final' ∧
      List.Forall₂ (RewrittenEvent may) events events' ∧ final.Alike may final' := by
  induction h generalizing other with
  | nil parser => exact ⟨[], other, .nil other, .nil, hother⟩
  | @cons parser after final event events hnext hlast _ ih =>
      obtain ⟨hevent, hafter⟩ := hother.next
      rw [hnext] at hevent hafter
      obtain ⟨events', final', hreads, hevents, hfinal⟩ := ih hafter
      exact ⟨_, final', .cons rfl (hevent.last.trans hlast) hreads, .cons hevent hevents, hfinal⟩

/-- A byte order mark stands in front of the first tag. -/
theorem Rewritten.drop_mark {document document' : List UInt8} (h : Rewritten may document document') :
    Rewritten may (Text.Utf8.dropMark document) (Text.Utf8.dropMark document') := by
  have htext (text : List UInt8) (hplain : byte '<' ∉ text) : byte '<' ∉ Text.Utf8.dropMark text := by
    unfold Text.Utf8.dropMark
    split
    · exact fun hmem => hplain (List.mem_of_mem_drop hmem)
    · exact hplain
  cases h with
  | same bytes => exact .same _
  | keep hplain hscan hrest =>
      rw [drop_mark_append _ (by simp), drop_mark_append _ (by simp)]
      exact .keep (htext _ hplain) hscan hrest
  | replace hplain hscan hscan' htag hrest =>
      rw [drop_mark_append _ (by simp), drop_mark_append _ (by simp)]
      exact .replace (htext _ hplain) hscan hscan' htag hrest

end events

end Xml

/-- Documents that differ in replaced values have tags that differ in these values alone, and end in the same
way. -/
theorem Reading.of_rewritten {may : Replacement} {document document' : List UInt8}
    (h : Xml.Rewritten may document document') :
    List.Forall₂ (Tag.Alike may) (ofBytes document).tags (ofBytes document').tags ∧
      (ofBytes document').ending.mapError ReportFault.kind = (ofBytes document).ending.mapError ReportFault.kind := by
  obtain ⟨events, final, hreads, hlast⟩ := Parser.reads_to_last (Parser.ofBytes document)
  obtain ⟨events', final', hreads', hevents, hfinal⟩ :=
    hreads.rewritten (⟨h.drop_mark, rfl⟩ : (Parser.ofBytes document).Alike may (Parser.ofBytes document'))
  obtain ⟨hevent, -⟩ := hfinal.next
  obtain ⟨htags, hdepth⟩ := Xml.tags_rewritten hevents 0
  rw [of_bytes_eq hreads hlast, of_bytes_eq hreads' (hevent.last.trans hlast), hdepth]
  exact ⟨htags, hevent.ending _⟩

end TestMeasures
