import TestMeasures.Command.Summary
import TestMeasures.Proofs.StoreBlocks

/-!
# What imports leave in a store

Publication goes measure by measure and takes nothing back, yet no component is ever published in part:
`ImportCall.run_ends` says how one import ends on a store of whole blocks, and
`publication_keeps_components_whole` follows any number of imports from the empty store.
-/

namespace TestMeasures

/-- An import into a store that is still to be named. -/
structure ImportCall where
  language : Language
  source : Source
  project : String
  warnings : Warnings

namespace ImportCall

/-- The import, into a store. -/
def run (call : ImportCall) (store : Store) : Imported :=
  call.language.importFrom call.source call.project ⟨store, call.warnings⟩

/-- The counts that the source of an import answers for a component. -/
def results? (call : ImportCall) (component : Component) : Option Counts :=
  match call.source.applicable, call.source.answer with
  | true, .ok table => table.results? call.project component
  | _, _ => none

/-- The store after imports, one after the other from the empty store. -/
def storeAfter (calls : List ImportCall) : Store :=
  calls.foldl (fun store call => (call.run store).session.store) .empty

variable {call : ImportCall} {store : Store} {held : List Block}

/-- How an import ends on a store of blocks, and which blocks it adds. -/
inductive Ending (call : ImportCall) (held : List Block) (done : Imported) : List Block → Prop where
  /-- There is nothing to import. -/
  | skipped (hsource : call.source.applicable = false) (houtcome : done.outcome = .skipped) :
      Ending call held done []
  /-- There are no results. -/
  | unread (error : AggregateError) (hsource : call.source.applicable = true)
      (hanswer : call.source.answer = .error error) (houtcome : done.outcome = .failed) :
      Ending call held done []
  /-- A component was held already. -/
  | refused (table : Table) (taken : List Block) (block : Block) (rest : List Block)
      (session : Session) (hsource : call.source.applicable = true) (hanswer : call.source.answer = .ok table)
      (hblocks : table.blocks call.project = taken ++ block :: rest)
      (hheld : ∃ other ∈ held ++ taken, ¬ other.Apart block)
      (hdone : done = call.language.fail session (.publish ⟨block.component, .tests⟩) call.source.events) :
      Ending call held done taken
  /-- Everything was published. -/
  | complete (table : Table) (hsource : call.source.applicable = true)
      (hanswer : call.source.answer = .ok table) (houtcome : done.outcome = .imported table.files.length) :
      Ending call held done (table.blocks call.project)

/-- On a store of whole blocks that are apart, an import adds whole blocks that are apart from them. -/
theorem run_ends (call : ImportCall) (hstore : store.measures = held.flatMap Block.figures)
    (hapart : held.Pairwise Block.Apart) :
    ∃ taken, (held ++ taken).Pairwise Block.Apart ∧
      (call.run store).session.store.measures = (held ++ taken).flatMap Block.figures ∧
      Ending call held (call.run store) taken := by
  unfold run Language.importFrom
  cases hsource : call.source.applicable with
  | false =>
      refine ⟨[], by simpa using hapart, by simpa using hstore, ?_⟩
      exact .skipped hsource rfl
  | true =>
      cases hanswer : call.source.answer with
      | error error =>
          refine ⟨[], by simpa using hapart, by simpa [Language.fail] using hstore, ?_⟩
          exact .unread error hsource hanswer rfl
      | ok table =>
          obtain ⟨taken, left, hblocks, hall, hresult⟩ :=
            Store.save_blocks hstore hapart (table.blocks call.project)
          rw [← Table.publication_eq] at hresult
          rcases hresult with ⟨rfl, hsaved⟩ | ⟨block, rest, rfl, hheld, hsaved⟩
          · rw [List.append_nil] at hblocks
            refine ⟨taken, hall, by simp [hsaved], ?_⟩
            rw [← hblocks]
            exact .complete table hsource hanswer (by simp [hsaved])
          · refine ⟨taken, hall, by simp [hsaved, Language.fail], ?_⟩
            exact .refused table taken block rest ⟨⟨(held ++ taken).flatMap Block.figures⟩, call.warnings⟩
              hsource hanswer hblocks hheld (by simp [hsaved])

/-- Among blocks that are apart, a block is the first one of its component. -/
theorem find_block {blocks : List Block} (h : blocks.Pairwise Block.Apart) {block : Block}
    (hblock : block ∈ blocks) :
    blocks.find? (fun other => block.component.same other.component) = some block := by
  obtain ⟨before, after, rfl⟩ := List.append_of_mem hblock
  refine List.find?_eq_some_iff_append.mpr
    ⟨Component.same_equivalence.refl _, before, after, rfl, fun other hother => ?_⟩
  have hapart := (List.pairwise_append.mp h).2.2 other hother block List.mem_cons_self
  simpa [Block.Apart] using hapart.symm

/-- The blocks that an import adds have the counts that its source answers. -/
theorem Ending.results {done : Imported} {taken : List Block} (h : call.Ending held done taken)
    (hapart : (held ++ taken).Pairwise Block.Apart) {block : Block} (hblock : block ∈ taken) :
    call.results? block.component = some block.counts := by
  obtain ⟨table, left, hsource, hanswer, hblocks⟩ : ∃ table left, call.source.applicable = true ∧
      call.source.answer = .ok table ∧ table.blocks call.project = taken ++ left := by
    cases h with
    | skipped | unread => cases hblock
    | refused table _ other rest _ hsource hanswer hblocks => exact ⟨table, _, hsource, hanswer, hblocks⟩
    | complete table hsource hanswer => exact ⟨table, [], hsource, hanswer, (List.append_nil _).symm⟩
  have hfind : taken.find? (fun other => block.component.same other.component) = some block :=
    find_block (List.pairwise_append.mp hapart).2.1 hblock
  simp [results?, hsource, hanswer, Table.results_eq_find, hblocks, List.find?_append, hfind]

/-- An import that fails on results that can be read was refused a number of tests. -/
theorem Ending.refused_tests {done : Imported} {taken : List Block} (h : call.Ending held done taken)
    {table : Table} (hanswer : call.source.answer = .ok table) (hfailed : done.outcome = .failed) :
    ∃ component session,
      done = call.language.fail session (.publish ⟨component, .tests⟩) call.source.events := by
  cases h with
  | skipped _ houtcome => cases houtcome.symm.trans hfailed
  | unread error _ hunread => cases hunread.symm.trans hanswer
  | refused _ _ block _ session _ _ _ _ hdone => exact ⟨block.component, session, hdone⟩
  | complete _ _ _ houtcome => cases houtcome.symm.trans hfailed

/-- A block is the work of one of some imports: the store lacked its component before, the source answered
its counts, and it stands in the store right after. -/
def Published (calls : List ImportCall) (block : Block) : Prop :=
  ∃ earlier call later, calls = earlier ++ call :: later ∧
    (storeAfter earlier).Lacks block.component ∧
    call.results? block.component = some block.counts ∧
    block.figures <:+: (storeAfter (earlier ++ [call])).measures

/-- Blocks are all that imports have left in a store, and each of them is the work of one import. -/
structure Leaves (calls : List ImportCall) (blocks : List Block) : Prop where
  measures_eq : (storeAfter calls).measures = blocks.flatMap Block.figures
  apart : blocks.Pairwise Block.Apart
  published : ∀ block ∈ blocks, Published calls block

/-- The store behind one more call is what the call makes of the store before. -/
theorem store_after_append (calls : List ImportCall) (call : ImportCall) :
    storeAfter (calls ++ [call]) = (call.run (storeAfter calls)).session.store := by
  simp [storeAfter]

/-- What was published by calls stays so when one more follows. -/
theorem Published.append {calls : List ImportCall} {block : Block} (h : Published calls block)
    (call : ImportCall) : Published (calls ++ [call]) block := by
  obtain ⟨earlier, publisher, later, rfl, hrest⟩ := h
  exact ⟨earlier, publisher, later ++ [call], by simp, hrest⟩

/-- One more import leaves whole blocks again. -/
theorem Leaves.append {calls : List ImportCall} {blocks : List Block} (h : Leaves calls blocks)
    (call : ImportCall) : ∃ more, Leaves (calls ++ [call]) more := by
  obtain ⟨taken, hapart, hmeasures, hending⟩ := call.run_ends h.measures_eq h.apart
  rw [← store_after_append] at hmeasures
  refine ⟨blocks ++ taken, hmeasures, hapart, fun block hblock => ?_⟩
  rcases List.mem_append.mp hblock with hblock | hblock
  · exact (h.published block hblock).append call
  · refine ⟨calls, call, [], rfl, ?_, hending.results hapart hblock, ?_⟩
    · rw [Store.lacks_iff h.measures_eq]
      exact fun other hother => (List.pairwise_append.mp hapart).2.2 other hother block hblock
    · rw [hmeasures, List.flatMap_def]
      exact List.infix_of_mem_flatten (List.mem_map_of_mem (List.mem_append_right _ hblock))

/-- What calls leave in a store are blocks that imports have published. -/
theorem leaves_blocks (calls : List ImportCall) : ∃ blocks, Leaves calls blocks := by
  rcases List.eq_nil_or_concat calls with rfl | ⟨earlier, call, rfl⟩
  · exact ⟨[], rfl, .nil, by simp⟩
  · obtain ⟨blocks, hblocks⟩ := leaves_blocks earlier
    rw [List.concat_eq_append]
    exact hblocks.append call
termination_by calls.length

end ImportCall

namespace Summary

variable {colored : Bool}

/-- Measures of the component at hand are listed under its heading. -/
theorem measure_lines_under {component : Component} {measures : List Measure}
    (h : ∀ measure ∈ measures, measure.component = component) (rest : List Measure) :
    measureLines colored (some component) (measures ++ rest) =
      measures.map measureLine ++ measureLines colored (some component) rest := by
  induction measures with
  | nil => rfl
  | cons measure more ih =>
      have hcomponent := h measure List.mem_cons_self
      have hsame : component.same component = true := Component.same_equivalence.refl component
      have hmore := ih fun other hother => h other (List.mem_cons_of_mem _ hother)
      simp [measureLines, hcomponent, hsame, hmore]

/-- A block of another component than the one at hand has a heading of its own. -/
theorem measure_lines_block {before : Option Component} {block : Block}
    (h : ∀ component ∈ before, ¬ component.same block.component = true) (rest : List Measure) :
    measureLines colored before (block.figures ++ rest) =
      heading colored block.component :: block.figures.map measureLine ++
        measureLines colored (some block.component) rest := by
  obtain ⟨others, hfigures⟩ := block.figures_eq_cons
  have hothers : ∀ measure ∈ others, measure.component = block.component := by
    intro measure hmeasure
    exact Block.component_of_mem_figures (by rw [hfigures]; exact List.mem_cons_of_mem _ hmeasure)
  have hnew : before.any (·.same block.component) = false := by
    cases before with
    | none => rfl
    | some component => simpa using h component rfl
  simp [hfigures, measureLines, hnew, measure_lines_under hothers]

/-- Blocks that are apart are listed under one heading each. -/
theorem measure_lines_blocks {before : Option Component} {blocks : List Block}
    (hbefore : ∀ component ∈ before, ∀ block ∈ blocks, ¬ component.same block.component = true)
    (hapart : blocks.Pairwise Block.Apart) :
    measureLines colored before (blocks.flatMap Block.figures) =
      blocks.flatMap fun block => heading colored block.component :: block.figures.map measureLine := by
  induction blocks generalizing before with
  | nil => rfl
  | cons block rest ih =>
      obtain ⟨hfirst, hrest⟩ := List.pairwise_cons.mp hapart
      rw [List.flatMap_cons, measure_lines_block fun component hcomponent =>
        hbefore component hcomponent block List.mem_cons_self]
      rw [ih _ hrest]
      · simp
      · rintro component hcomponent other hother
        obtain rfl := Option.some.inj hcomponent
        exact hfirst other hother

/-- What a summary has between the languages and the warnings, when its store consists of blocks that are
apart: the figures of each block, under one heading. -/
theorem text_of_blocks {summary : Summary} {blocks : List Block}
    (hstore : summary.session.store.measures = blocks.flatMap Block.figures)
    (hapart : blocks.Pairwise Block.Apart) (colored : Bool) :
    summary.text colored = "".intercalate
      (summary.languages.map (fun entry => languageLine colored entry.1 entry.2) ++
        (blocks.flatMap fun block => heading colored block.component :: block.figures.map measureLine) ++
        if summary.session.warnings.isEmpty then []
        else "\n" :: summary.session.warnings.texts.map (warningLine colored)) := by
  rw [text, lines, hstore, measure_lines_blocks (by simp) hapart]

end Summary

open ImportCall

/-- Whatever imports have run on one store from the empty one, in any order and however they ended, the
store consists of whole blocks, one for each of its components, each published by one import. An import
that is refused on top of that is refused a number of tests, and a summary of the store has exactly one
heading for each component. -/
theorem publication_keeps_components_whole (calls : List ImportCall) :
    ∃ blocks : List Block,
      (storeAfter calls).measures = blocks.flatMap Block.figures ∧
      blocks.Pairwise Block.Apart ∧
      (∀ block ∈ blocks, Published calls block) ∧
      (∀ (call : ImportCall) (table : Table), call.source.answer = .ok table →
        (call.run (storeAfter calls)).outcome = .failed →
          ∃ component session, call.run (storeAfter calls) =
            call.language.fail session (.publish ⟨component, .tests⟩) call.source.events) ∧
      ∀ (summary : Summary) (colored : Bool), summary.session.store = storeAfter calls →
        summary.text colored = "".intercalate
          (summary.languages.map (fun entry => Summary.languageLine colored entry.1 entry.2) ++
            (blocks.flatMap fun block =>
              Summary.heading colored block.component :: block.figures.map Summary.measureLine) ++
            if summary.session.warnings.isEmpty then []
            else "\n" :: summary.session.warnings.texts.map (Summary.warningLine colored)) := by
  obtain ⟨blocks, hmeasures, hapart, hpublished⟩ := leaves_blocks calls
  refine ⟨blocks, hmeasures, hapart, hpublished, fun call table hanswer hfailed => ?_,
    fun summary colored hstore => ?_⟩
  · obtain ⟨taken, -, -, hending⟩ := call.run_ends hmeasures hapart
    exact hending.refused_tests hanswer hfailed
  · exact Summary.text_of_blocks (by rw [hstore, hmeasures]) hapart colored

end TestMeasures
