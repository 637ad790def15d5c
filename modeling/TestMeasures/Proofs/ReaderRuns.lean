import TestMeasures.Proofs.DocumentFront

/-!
# A reader that is asked again and again

`Reader.after` and `Reader.answer` are the reader behind so many calls and what it answers then; it may be asked
on behind a fault and behind the end. `Reader.Passes` follows a reader from one event to the next, and says which
markup it has come across and what it has answered on the way. Every call is a run of such steps, the last of
which answers (`Reader.exists_call`), and every step belongs to a call (`Reader.Passes.next_eq`), so that what
each step keeps holds between any two calls.
-/

namespace TestMeasures

open Xml (Parser Markup)

namespace Reader

/-- What a reader can answer when it is asked for the next tag. -/
abbrev Answer := Except ReportFault (Option Tag)

/-- A reader behind so many calls. -/
def after (reader : Reader) : Nat → Reader
  | 0 => reader
  | calls + 1 => (reader.after calls).next.2

/-- What a reader answers behind so many calls. -/
def answer (reader : Reader) (calls : Nat) : Answer :=
  (reader.after calls).next.1

/-- The answers of a reader to so many calls, in their order. -/
def answers (reader : Reader) (calls : Nat) : List Answer :=
  (List.range calls).map reader.answer

/-- One step of a reader: the markup that it meets, what it answers to the event, if anything, and the reader
behind it. -/
def Step (reader : Reader) (ahead : Option Markup) (answer : Option Answer) (after : Reader) : Prop :=
  ∃ event parser, reader.parser.Meets ahead event parser ∧ reader.meet parser event = (answer, after)

/-- The steps of a reader: the markup that it has come across, what it has answered, and the reader there. -/
inductive Passes (start : Reader) : List Markup → List Answer → Reader → Prop where
  | start : Passes start [] [] start
  | step {passed : List Markup} {answers : List Answer} {reader after : Reader} {ahead : Option Markup}
      {answer : Option Answer} (h : Passes start passed answers reader) (hstep : reader.Step ahead answer after) :
      Passes start (passed ++ ahead.toList) (answers ++ answer.toList) after

variable {start reader middle behind : Reader} {passed others : List Markup} {answers more : List Answer}
  {ahead : Option Markup} {answer : Answer}

/-- The last of so many answers is that of the last call. -/
theorem answers_succ (reader : Reader) (calls : Nat) :
    reader.answers (calls + 1) = reader.answers calls ++ [reader.answer calls] := by
  rw [Reader.answers, List.range_succ, List.map_append]
  rfl

/-- There are as many answers as calls. -/
theorem length_answers (reader : Reader) (calls : Nat) : (reader.answers calls).length = calls := by
  rw [Reader.answers, List.length_map, List.length_range]

/-- So many calls and more are the calls and then the others. -/
theorem after_add (start : Reader) (calls more : Nat) :
    start.after (calls + more) = (start.after calls).after more := by
  induction more with
  | zero => rfl
  | succ more ih =>
      show (start.after (calls + more)).next.2 = ((start.after calls).after more).next.2
      rw [ih]

/-- The answer to a later call is that of the reader behind the first. -/
theorem answer_succ (reader : Reader) (calls : Nat) :
    reader.answer (calls + 1) = reader.next.2.answer calls := by
  have hafter := reader.after_add 1 calls
  rw [Nat.add_comm] at hafter
  rw [answer, hafter]
  rfl

/-- The first answer, and those of the reader behind the first call. -/
theorem answers_cons (reader : Reader) (calls : Nat) :
    reader.answers (calls + 1) = reader.next.1 :: reader.next.2.answers calls := by
  induction calls with
  | zero => rfl
  | succ calls ih =>
      rw [answers_succ, ih, answers_succ reader.next.2, List.cons_append, answer_succ]

/-- What is passed in one run and then in another is passed in both. -/
theorem Passes.trans (h : start.Passes passed answers middle) (hmore : middle.Passes others more reader) :
    start.Passes (passed ++ others) (answers ++ more) reader := by
  induction hmore with
  | start => simpa using h
  | step _ hstep ih =>
      rw [← List.append_assoc, ← List.append_assoc]
      exact .step ih hstep

/-- A reader can always take a step. -/
theorem exists_step (reader : Reader) : ∃ ahead answer after, reader.Step ahead answer after := by
  obtain ⟨ahead, hmeets⟩ := reader.parser.exists_meets
  exact ⟨ahead, _, _, _, _, hmeets, rfl⟩

/-- A step that answers is what a call comes to. -/
theorem Step.next_of_answer (h : reader.Step ahead (some answer) behind) : reader.next = (answer, behind) := by
  obtain ⟨event, parser, hmeets, hmeet⟩ := h
  simp only [next, nextFrom, hmeets.next_eq, hmeet]

/-- A step that does not answer takes bytes, and the call goes on behind it. -/
theorem Step.next_of_none (h : reader.Step ahead none behind) :
    behind.parser.rest.length < reader.parser.rest.length ∧ reader.next = behind.next := by
  obtain ⟨event, parser, hmeets, hmeet⟩ := h
  have hlast : event.isLast = false := by
    cases event with
    | opened | empty | fault | finished => cases hmeet
    | closed | other => rfl
  have hparser : behind.parser = parser := by
    cases event with
    | opened | empty | fault | finished => cases hmeet
    | closed | other => cases hmeet; rfl
  have hlength := Parser.next_length hmeets.next_eq hlast
  rw [hparser]
  refine ⟨hlength, ?_⟩
  unfold next
  rw [nextFrom, hmeets.next_eq]
  simp only [hmeet]
  exact next_from_enough (by rw [hparser]; exact hlength) (by omega)

/-- A call takes steps that do not answer, and then one that does. -/
theorem exists_next (reader : Reader) : ∃ passed within ahead, reader.Passes passed [] within ∧
    within.Step ahead (some reader.next.1) reader.next.2 := by
  obtain ⟨ahead, answer, after, hstep⟩ := reader.exists_step
  cases answer with
  | some answer =>
      refine ⟨[], reader, ahead, .start, ?_⟩
      rw [hstep.next_of_answer]
      exact hstep
  | none =>
      obtain ⟨hlength, hnext⟩ := hstep.next_of_none
      obtain ⟨passed, within, last, hpasses, hlast⟩ := exists_next after
      rw [hnext]
      exact ⟨_, within, last, (Passes.start.step hstep).trans hpasses, hlast⟩
termination_by reader.parser.rest.length

/-- A call behind some steps. -/
theorem Passes.call {calls : Nat} (h : start.Passes passed (start.answers calls) (start.after calls)) :
    ∃ passed within ahead, start.Passes passed (start.answers calls) within ∧
      within.Step ahead (some (start.answer calls)) (start.after (calls + 1)) := by
  obtain ⟨others, within, ahead, hmore, hstep⟩ := (start.after calls).exists_next
  have hall := h.trans hmore
  rw [List.append_nil] at hall
  exact ⟨_, within, ahead, hall, hstep⟩

/-- Between any two calls, a reader has taken steps, and given the answers to the calls before. -/
theorem exists_passes (start : Reader) (calls : Nat) :
    ∃ passed, start.Passes passed (start.answers calls) (start.after calls) := by
  induction calls with
  | zero => exact ⟨[], .start⟩
  | succ calls ih =>
      obtain ⟨passed, hpasses⟩ := ih
      obtain ⟨others, within, ahead, hmore, hstep⟩ := hpasses.call
      rw [answers_succ]
      exact ⟨_, hmore.step hstep⟩

/-- Every call ends with a step that answers, behind the answers to the calls before. -/
theorem exists_call (start : Reader) (calls : Nat) : ∃ passed within ahead,
    start.Passes passed (start.answers calls) within ∧
      within.Step ahead (some (start.answer calls)) (start.after (calls + 1)) := by
  obtain ⟨passed, hpasses⟩ := start.exists_passes calls
  exact hpasses.call

/-- The steps of a reader belong to its calls: the answers on the way are those to the calls so far, and the next
call goes on from there. -/
theorem Passes.next_eq (h : start.Passes passed answers reader) :
    start.answers answers.length = answers ∧ (start.after answers.length).next = reader.next := by
  induction h with
  | start => exact ⟨rfl, rfl⟩
  | @step passed answers reader behind ahead answer h hstep ih =>
      obtain ⟨hanswers, hnext⟩ := ih
      cases answer with
      | none =>
          rw [Option.toList_none, List.append_nil]
          exact ⟨hanswers, hnext.trans hstep.next_of_none.2⟩
      | some answer =>
          have hcall := hnext.trans hstep.next_of_answer
          rw [Option.toList_some, List.length_append, List.length_singleton, answers_succ, hanswers]
          refine ⟨?_, ?_⟩
          · rw [Reader.answer, hcall]
          · show ((start.after answers.length).next.2).next = behind.next
            rw [hcall]

end Reader

end TestMeasures
