import TestMeasures.Proofs.ReaderProgress

/-!
# Open elements and open tags

A reader counts open tags, and its parser keeps the names of open elements by itself. An end tag of the wrong
name takes a name from the parser and nothing from the count, and all else changes both alike, so the count is
that of the names and of such end tags so far (`Reader.Passes.open_tags`). As long as there was none, the names
are those of the elements around the place (`Reader.Passes.encloses`), where `Xml.Encloses` is a grammar that
knows of no parser. `open_tags_count_names` puts together what follows for the depth of a tag and for the end of
the document.
-/

namespace TestMeasures

open Xml (Parser Markup)

namespace Xml

/-- Markup that neither opens an element nor closes one. -/
def Markup.IsSilent : Markup → Prop
  | .opening _ | .closing _ => False
  | .empty _ | .other | .namelessDoctype => True

/-- Markup in which every start tag has its end tag, and every end tag its start tag. -/
inductive Matched : List Markup → Prop where
  | nil : Matched []
  | silent {markup : Markup} {rest : List Markup} (hsilent : markup.IsSilent) (hrest : Matched rest) :
      Matched (markup :: rest)
  | element {inner rest : List Markup} (content : List UInt8) (hinner : Matched inner) (hrest : Matched rest) :
      Matched (.opening content :: (inner ++ .closing (tagName content) :: rest))

/-- Markup behind which one is in elements of these names, the innermost first. An end tag outside all elements
closes nothing. -/
inductive Encloses : List Markup → List (List UInt8) → Prop where
  | outside {passed : List Markup} (h : Matched passed) : Encloses passed []
  | stray {passed inner : List Markup} (name : List UInt8) (h : Encloses passed []) (hinner : Matched inner) :
      Encloses (passed ++ .closing name :: inner) []
  | inside {passed inner : List Markup} {names : List (List UInt8)} (content : List UInt8)
      (h : Encloses passed names) (hinner : Matched inner) :
      Encloses (passed ++ .opening content :: inner) (tagName content :: names)

/-- The names of open elements behind one more piece of markup, where no name is looked at. -/
def Markup.openNames (names : List (List UInt8)) : Markup → List (List UInt8)
  | .opening content => tagName content :: names
  | .closing _ => names.tail
  | .empty _ | .other | .namelessDoctype => names

variable {passed more : List Markup} {names others : List (List UInt8)}

/-- Matched markup behind matched markup is matched. -/
theorem Matched.append (h : Matched passed) (hmore : Matched more) : Matched (passed ++ more) := by
  induction h with
  | nil => exact hmore
  | silent hsilent _ ih => exact .silent hsilent ih
  | element content hinner _ _ ih =>
      rw [List.cons_append, List.append_assoc, List.cons_append]
      exact .element content hinner ih

/-- What is matched leads out of no element and into none. -/
theorem Encloses.append (h : Encloses passed names) (hmore : Matched more) : Encloses (passed ++ more) names := by
  cases h with
  | outside h => exact .outside (h.append hmore)
  | stray name h hinner =>
      rw [List.append_assoc, List.cons_append]
      exact .stray name h (hinner.append hmore)
  | inside content h hinner =>
      rw [List.append_assoc, List.cons_append]
      exact .inside content h (hinner.append hmore)

/-- The end tag of the innermost element leads out of that. -/
theorem Encloses.close {name : List UInt8} (h : Encloses passed (name :: names)) :
    Encloses (passed ++ [.closing name]) names := by
  cases h with
  | inside content h hinner =>
      rw [List.append_assoc, List.cons_append]
      exact h.append (.element content hinner .nil)

/-- Behind matched markup, the same elements are open as in front of it. -/
theorem Matched.open_names (h : Matched passed) (names : List (List UInt8)) :
    passed.foldl Markup.openNames names = names := by
  induction h generalizing names with
  | nil => rfl
  | @silent markup rest hsilent _ ih =>
      cases markup with
      | opening | closing => cases hsilent
      | empty | other | namelessDoctype => exact ih names
  | element content _ _ ihinner ihrest =>
      rw [List.foldl_cons, List.foldl_append, ihinner, List.foldl_cons]
      exact ihrest names

/-- The elements that are open behind markup are those that it encloses. -/
theorem Encloses.open_names (h : Encloses passed names) : passed.foldl Markup.openNames [] = names := by
  induction h with
  | outside h => exact h.open_names []
  | stray name _ hinner ih =>
      rw [List.foldl_append, ih, List.foldl_cons]
      exact hinner.open_names []
  | inside content _ hinner ih =>
      rw [List.foldl_append, ih, List.foldl_cons]
      exact hinner.open_names _

/-- Behind the same markup one is in the same elements, however that is derived. -/
theorem Encloses.unique (h : Encloses passed names) (hother : Encloses passed others) : others = names :=
  hother.open_names.symm.trans h.open_names

/-- An end tag that fits takes a name. -/
theorem Parser.Meets.closed_names {parser after : Parser} {ahead : Option Markup}
    (h : parser.Meets ahead .closed after) : ∃ name, parser.unclosed = name :: after.unclosed := by
  generalize hevent : Markup.Event.closed = event at h
  cases h with
  | finished | broken => cases hevent
  | @markup text bytes rest markup _ _ htext hrest hscan hmarkup =>
      subst hevent
      cases markup with
      | opening | empty | other | namelessDoctype => cases hmarkup
      | closing name =>
          unfold Parser.meet at hmarkup
          simp only at hmarkup
          split at hmarkup
          · cases hmarkup
          case h_2 expected outer hnames =>
            split at hmarkup <;> cases hmarkup
            exact ⟨expected, hnames⟩

end Xml

open Xml (Matched Encloses)

namespace Reader

/-- Whether an answer is the fault of an end tag that has another name than the innermost element. -/
def isMismatch : Answer → Bool
  | .error (.xml _ (.illFormed (.mismatchedEnd _ _))) => true
  | _ => false

/-- The number of mismatched end tags that were answered to so many calls. -/
def mismatches (reader : Reader) (calls : Nat) : Nat :=
  (reader.answers calls).countP isMismatch

/-- The markup in front of the place where a call is answered. -/
def InFront (start : Reader) (call : Nat) (passed : List Markup) : Prop :=
  ∃ within ahead, start.Passes passed (start.answers call) within ∧
    within.Step ahead (some (start.answer call)) (start.after (call + 1))

/-- What one step does to the count of open tags and to the names of open elements. -/
inductive Turns (reader behind : Reader) : Option Markup → Option Answer → Prop where
  | opened (content : List UInt8) {answer : Answer} (hanswer : isMismatch answer = false)
      (hopen : behind.openTags = reader.openTags + 1)
      (hnames : behind.parser.unclosed = Xml.tagName content :: reader.parser.unclosed) :
      Turns reader behind (some (.opening content)) (some answer)
  | closed {name : List UInt8} (hopen : behind.openTags = reader.openTags - 1)
      (hnames : reader.parser.unclosed = name :: behind.parser.unclosed) :
      Turns reader behind (some (.closing name)) none
  | mismatched {name expected : List UInt8} {answer : Answer} (hanswer : isMismatch answer = true)
      (hopen : behind.openTags = reader.openTags)
      (hnames : reader.parser.unclosed = expected :: behind.parser.unclosed) :
      Turns reader behind (some (.closing name)) (some answer)
  | stray {name : List UInt8} {answer : Answer} (hanswer : isMismatch answer = false)
      (hopen : behind.openTags = reader.openTags) (hnone : reader.parser.unclosed = [])
      (hnames : behind.parser.unclosed = []) : Turns reader behind (some (.closing name)) (some answer)
  | silent {ahead : Option Markup} {answer : Option Answer} (hahead : Matched ahead.toList)
      (hanswer : answer.toList.countP isMismatch = 0) (hopen : behind.openTags = reader.openTags)
      (hnames : behind.parser.unclosed = reader.parser.unclosed) : Turns reader behind ahead answer

variable {start reader behind : Reader} {passed : List Markup} {answers : List Answer} {ahead : Option Markup}
  {answer : Option Answer}

/-- A step changes the count of open tags and the names of open elements as its markup says. -/
theorem Step.turns (h : reader.Step ahead answer behind) : reader.Turns behind ahead answer := by
  obtain ⟨event, parser, hmeets, hmeet⟩ := h
  cases hmeets with
  | finished =>
      cases hmeet
      refine .silent .nil ?_ rfl rfl
      rw [Option.toList_some, List.countP_singleton]
      split <;> rfl
  | broken =>
      cases hmeet
      exact .silent .nil rfl rfl rfl
  | @markup text bytes rest markup event parser htext hrest hscan hmarkup =>
      cases markup with
      | opening content =>
          cases hmarkup
          cases hmeet
          exact .opened content rfl rfl rfl
      | empty | other | namelessDoctype =>
          cases hmarkup
          cases hmeet
          exact .silent (.silent trivial .nil) rfl rfl rfl
      | closing name =>
          unfold Parser.meet at hmarkup
          simp only at hmarkup
          split at hmarkup
          case h_1 hnone =>
            cases hmarkup
            cases hmeet
            exact .stray rfl rfl hnone hnone
          case h_2 expected outer hnames =>
            split at hmarkup
            case isTrue hname =>
              cases hmarkup
              cases hmeet
              exact .closed rfl (hname ▸ hnames)
            case isFalse =>
              cases hmarkup
              cases hmeet
              exact .mismatched rfl rfl hnames

/-- The count of open tags is that of the names that the parser keeps and of the mismatched end tags so far. -/
theorem Passes.open_tags (h : start.Passes passed answers reader)
    (hstart : start.openTags = start.parser.unclosed.length) :
    reader.openTags = reader.parser.unclosed.length + answers.countP isMismatch := by
  induction h with
  | start => simpa using hstart
  | step h hstep ih =>
      rw [List.countP_append]
      cases hstep.turns with
      | opened content hanswer hopen hnames =>
          simp [hanswer, hopen, hnames]
          omega
      | closed hopen hnames =>
          rw [hnames, List.length_cons] at ih
          simp [hopen]
          omega
      | mismatched hanswer hopen hnames =>
          rw [hnames, List.length_cons] at ih
          simp [hanswer, hopen]
          omega
      | stray hanswer hopen hnone hnames =>
          rw [hnone] at ih
          simp [hanswer, hopen, hnames, ih]
      | silent hahead hanswer hopen hnames => rw [hanswer, hopen, hnames, ih, Nat.add_zero]

/-- As long as there was no mismatched end tag, the parser keeps the names of the elements around the place. -/
theorem Passes.encloses (h : start.Passes passed answers reader) (hstart : start.parser.unclosed = [])
    (hnone : answers.countP isMismatch = 0) : Encloses passed reader.parser.unclosed := by
  induction h with
  | start =>
      rw [hstart]
      exact .outside .nil
  | step h hstep ih =>
      rw [List.countP_append, Nat.add_eq_zero_iff] at hnone
      have hbefore := ih hnone.1
      cases hstep.turns with
      | opened content _ _ hnames =>
          rw [hnames]
          exact .inside content hbefore .nil
      | closed _ hnames =>
          rw [hnames] at hbefore
          exact hbefore.close
      | mismatched hanswer =>
          rw [Option.toList_some, List.countP_singleton, if_pos hanswer] at hnone
          exact absurd hnone.2 Nat.one_ne_zero
      | stray _ _ hempty hnames =>
          rw [hempty] at hbefore
          rw [hnames]
          exact .stray _ hbefore .nil
      | silent hahead _ _ hnames =>
          rw [hnames]
          exact hbefore.append hahead

/-- Where the parser has come to an end tag that fits, there is a tag open. -/
theorem Passes.open_tags_pos (h : start.Passes passed answers reader)
    (hstart : start.openTags = start.parser.unclosed.length) (hclosed : reader.parser.next.1 = .closed) :
    0 < reader.openTags := by
  obtain ⟨ahead, hmeets⟩ := reader.parser.exists_meets
  rw [hclosed] at hmeets
  obtain ⟨name, hnames⟩ := hmeets.closed_names
  rw [h.open_tags hstart, hnames, List.length_cons]
  omega

/-- Later calls do not take back a mismatched end tag. -/
theorem mismatches_mono (start : Reader) {calls later : Nat} (h : calls ≤ later) :
    start.mismatches calls ≤ start.mismatches later := by
  refine List.Sublist.countP_le ?_
  exact (List.range_sublist.mpr h).map _

/-- A tag of a call in front of which there was no mismatched end tag is as deep as there are elements around. -/
theorem InFront.depth {call : Nat} {tag : Tag} (h : start.InFront call passed) (hopen : start.openTags = 0)
    (hnames : start.parser.unclosed = []) (htag : start.answer call = .ok (some tag))
    (hnone : start.mismatches call = 0) :
    ∃ names, tag.depth = names.length ∧ ∀ others, Encloses passed others ↔ others = names := by
  obtain ⟨within, ahead, hpasses, hstep⟩ := h
  rw [htag] at hstep
  obtain ⟨-, text, hcontent, -⟩ := hstep.of_tag
  have hencloses := hpasses.encloses hnames hnone
  have hdepth : tag.depth = within.openTags := congrArg Tag.depth hcontent
  refine ⟨within.parser.unclosed, ?_, fun others => ⟨hencloses.unique, fun heq => heq ▸ hencloses⟩⟩
  have hcount := hpasses.open_tags (by rw [hopen, hnames]; rfl)
  unfold mismatches at hnone
  omega

/-- Behind a mismatched end tag there is always a tag open. -/
theorem open_of_mismatch {calls call : Nat} (hstart : start.openTags = start.parser.unclosed.length)
    (hmismatch : 0 < start.mismatches calls) (hcall : calls ≤ call) : 0 < (start.after call).openTags := by
  obtain ⟨passed, hpasses⟩ := start.exists_passes call
  have hopen := hpasses.open_tags hstart
  have hmono := start.mismatches_mono hcall
  unfold mismatches at hmono hmismatch
  omega

end Reader

/-- For every document and every number of calls, those behind faults and behind the end among them, the count of
open tags is that of the names of open elements and of the mismatched end tags that were answered. So the count is
not zero where an end tag is taken from it. As long as no mismatched end tag was answered, the depth of a tag is the
number of elements around it. Once one was, no call is answered by a clean end, and from some call on every one
is answered by tags that are left open. -/
theorem open_tags_count_names (document : List UInt8) :
    let reader := Reader.ofBytes document
    (∀ calls, (reader.after calls).openTags = (reader.after calls).parser.unclosed.length + reader.mismatches calls) ∧
    (∀ passed answers within, reader.Passes passed answers within → within.parser.next.1 = .closed →
      (reader.after answers.length).next = within.next ∧ 0 < within.openTags) ∧
    (∀ call tag, reader.answer call = .ok (some tag) → reader.mismatches call = 0 →
      (∃ passed, reader.InFront call passed) ∧ ∀ passed, reader.InFront call passed →
        ∃ names, tag.depth = names.length ∧ ∀ others, Encloses passed others ↔ others = names) ∧
    ∀ calls, 0 < reader.mismatches calls → (∀ call ≥ calls, reader.answer call ≠ .ok none) ∧
      ∃ busy last, 0 < last ∧ ∀ call ≥ busy, reader.answer call = .error (.unclosed last) := by
  intro reader
  refine ⟨fun calls => ?_, fun passed answers within hpasses hclosed => ?_, fun call tag htag hnone => ?_,
    fun calls hmismatch => ⟨fun call hcall hend => ?_, ?_⟩⟩
  · obtain ⟨passed, hpasses⟩ := reader.exists_passes calls
    exact hpasses.open_tags rfl
  · exact ⟨hpasses.next_eq.2, hpasses.open_tags_pos rfl hclosed⟩
  · exact ⟨reader.exists_call call, fun passed hfront => hfront.depth rfl rfl htag hnone⟩
  · obtain ⟨passed, within, ahead, -, hstep⟩ := reader.exists_call call
    rw [hend] at hstep
    obtain ⟨hanswer, -, -⟩ := hstep.final rfl
    have hopen := Reader.open_of_mismatch rfl hmismatch (Nat.le_succ_of_le hcall)
    rw [Reader.finalAnswer, if_pos hopen] at hanswer
    cases hanswer
  · obtain ⟨busy, last, -, -, hlast⟩ := reader.answers_settle
    have hpos : 0 < last := by
      rw [← (hlast (max busy calls) (Nat.le_max_left ..)).2.2]
      exact Reader.open_of_mismatch rfl hmismatch (Nat.le_succ_of_le (Nat.le_max_right ..))
    refine ⟨busy, last, hpos, fun call hcall => ?_⟩
    rw [(hlast call hcall).1, Reader.finalAnswer, if_pos hpos]

end TestMeasures
