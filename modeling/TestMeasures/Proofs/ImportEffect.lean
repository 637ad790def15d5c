import Mathlib.Data.List.TakeWhile
import TestMeasures.Proofs.LanguageRun

/-!
# What one import does

Publication stops at the first measure that the store holds already, and nothing that was saved before is
taken back. `Store.save_all_eq` says so for any store, and `import_adds_free_measures` for a whole import:
what it adds to a store, how it ends, what it tells and whom it warns.
-/

namespace TestMeasures

namespace Store

/-- A store that got one more measure holds what it held, and what clashes with that one. -/
theorem holds_append (store : Store) (saved measure : Measure) :
    holds ⟨store.measures ++ [saved]⟩ measure = (store.holds measure || measure.clashes saved) := by
  simp [holds]

/-- Measures of which no two clash are saved up to the first that the store holds. -/
theorem save_all_eq {store : Store} {measures : List Measure} {held : Measure → Bool}
    (hheld : ∀ measure ∈ measures, store.holds measure = held measure)
    (hapart : measures.Pairwise fun a b => b.clashes a = false) :
    store.saveAll measures = (⟨store.measures ++ measures.takeWhile (!held ·)⟩,
      (measures.find? held).map fun refused => ⟨refused.component, refused.metric⟩) := by
  -- `held` stays the same while the store grows: no saved measure clashes with one that is to come.
  induction measures generalizing store with
  | nil => simp [saveAll]
  | cons measure rest ih =>
      obtain ⟨hfirst, hrest⟩ := List.pairwise_cons.mp hapart
      obtain ⟨hmeasure, hlater⟩ := List.forall_mem_cons.mp hheld
      unfold saveAll save
      rw [hmeasure]
      cases hcase : held measure with
      | true => simp [hcase]
      | false =>
          have hgrown : ∀ later ∈ rest, holds ⟨store.measures ++ [measure]⟩ later = held later := by
            intro later hmem
            rw [holds_append, hfirst later hmem, Bool.or_false]
            exact hlater later hmem
          simp only [Bool.false_eq_true, if_false]
          rw [ih hgrown hrest]
          simp [hcase]

end Store

/-- No two measures that are published about a table clash. -/
theorem Table.publication_apart (table : Table) (project : String) :
    (publication project table).Pairwise fun a b => b.clashes a = false := by
  rw [publication_eq, List.pairwise_flatMap]
  constructor
  · intro block hblock
    refine block.figures_distinct.imp fun {a b} hmetric => ?_
    simp [Measure.clashes, Ne.symm hmetric]
  · refine (table.blocks_apart project).imp fun {first second} hapart a ha b hb => ?_
    have hother : ¬ b.component.same a.component = true := by
      rw [Block.component_of_mem_figures ha, Block.component_of_mem_figures hb]
      exact fun hsame => hapart (Component.same_equivalence.symm hsame)
    simp [Measure.clashes, hother]

/-- Whether an event is a warning. -/
def Event.warns (event : Event) : Bool :=
  event.level == .warn

section silence

variable {space : Workspace} {state after : Aggregation} {dialect : Dialect} {fault : Option AggregateError}

/-- The events of parsing effects are no warnings. -/
theorem effect_events_silent (map : MethodMap) (effects : List Effect) :
    ∀ event ∈ effectEvents map effects, event.warns = false := by
  intro event hevent
  obtain ⟨effect, -, hevent⟩ := List.mem_flatMap.mp hevent
  cases effect with
  | note scope message =>
      rw [List.mem_singleton.mp hevent]
      rfl
  | charge name record =>
      simp only [Effect.events, attribution] at hevent
      split at hevent
      · cases hevent
      · rw [List.mem_singleton.mp hevent]
        rfl

/-- Parsing a report warns of nothing. -/
theorem Dialect.parse_file_silent (dialect : Dialect) (tree : FileTree) (path : Path) (map : MethodMap)
    (table : Table) : ∀ event ∈ (dialect.parseFile tree path map table).events, event.warns = false := by
  unfold parseFile
  split
  case h_1 => simp
  case h_2 bytes _ =>
    intro event hevent
    rcases List.mem_append.mp hevent with hevent | hevent
    · rw [List.mem_singleton.mp hevent]
      rfl
    · exact effect_events_silent map _ event hevent
  case h_3 =>
    intro event hevent
    rw [List.mem_singleton.mp hevent]
    rfl

namespace Aggregation

/-- Nothing that an aggregation told so far is a warning. -/
def Silent (state : Aggregation) : Prop :=
  ∀ event ∈ state.events, event.warns = false

/-- An aggregation stays silent over a file. -/
theorem Silent.add_file (h : state.Silent) (path : Path)
    (hrun : addFile space dialect state path = (after, fault)) :
    after.Silent := by
  have hparsed := dialect.parse_file_silent space.tree path space.map .empty
  unfold addFile at hrun
  split at hrun
  case isTrue =>
    obtain ⟨rfl, -⟩ := Prod.mk.inj hrun
    exact List.forall_mem_append.mpr ⟨h, by simp [Event.warns]⟩
  case isFalse =>
    simp only at hrun
    split at hrun <;> obtain ⟨rfl, -⟩ := Prod.mk.inj hrun <;>
      exact List.forall_mem_append.mpr ⟨h, hparsed⟩

/-- An aggregation stays silent over files. -/
theorem Silent.add_files (h : state.Silent) {paths : List Path}
    (hrun : addFiles space dialect state paths = (after, fault)) : after.Silent := by
  induction paths generalizing state with
  | nil =>
      obtain ⟨rfl, -⟩ := Prod.mk.inj hrun
      exact h
  | cons path rest ih =>
      unfold addFiles at hrun
      split at hrun
      case h_1 next hnext => exact ih (h.add_file path hnext) hrun
      case h_2 => exact h.add_file path hrun

/-- An aggregation stays silent over a pattern. -/
theorem Silent.add_pattern (h : state.Silent) {pattern : String}
    (hrun : addPattern space state dialect pattern = (after, fault)) : after.Silent := by
  unfold addPattern at hrun
  split at hrun
  case h_1 =>
    obtain ⟨rfl, -⟩ := Prod.mk.inj hrun
    exact h
  case h_2 =>
    obtain ⟨rfl, -⟩ := Prod.mk.inj hrun
    exact List.forall_mem_append.mpr ⟨h, by simp [Event.warns]⟩
  case h_3 => exact h.add_files hrun

/-- An aggregation stays silent over patterns. -/
theorem Silent.add_patterns (h : state.Silent) {patterns : List (Dialect × String)}
    (hrun : addPatterns space state patterns = (after, fault)) : after.Silent := by
  induction patterns generalizing state with
  | nil =>
      obtain ⟨rfl, -⟩ := Prod.mk.inj hrun
      exact h
  | cons entry rest ih =>
      unfold addPatterns at hrun
      split at hrun
      case h_1 next hnext => exact ih (h.add_pattern hnext) hrun
      case h_2 => exact h.add_pattern hrun

end Aggregation

/-- Configured reports warn of nothing by themselves; it is left to the import to warn that it failed. -/
theorem Source.of_reports_silent (space : Workspace) (reports : Reports) :
    ∀ event ∈ (Source.ofReports space reports).events, event.warns = false := by
  have hinitial : Aggregation.initial.Silent := by simp [Aggregation.Silent, Aggregation.initial]
  have hevents : (Source.ofReports space reports).events =
      (Aggregation.addPatterns space .initial reports.toList).1.events := by
    unfold Source.ofReports aggregate
    split <;> simp_all
  rw [hevents]
  exact hinitial.add_patterns rfl

end silence

namespace Language

variable (language : Language) (source : Source) (project : String) (session : Session)

/-- The message of an import that was completed. -/
def importedMessage (language : Language) (files : Nat) : String :=
  "Imported unit test results for " ++ language.name ++ " (" ++ toString files ++ " file(s))"

/-- With a table, an import ends as saving its publication does. -/
theorem import_of_saved (hsource : source.applicable = true) {table : Table}
    (hanswer : source.answer = .ok table) {store : Store} {refused : Option DuplicateMeasure}
    (hsaved : session.store.saveAll (publication project table) = (store, refused)) :
    language.importFrom source project session =
      match refused with
      | some refused => language.fail { session with store := store } (.publish refused) source.events
      | none => ⟨.imported table.files.length, { session with store := store }, source.events ++
          [⟨.info, .importing, language.importedMessage table.files.length⟩]⟩ := by
  unfold importFrom importedMessage
  rw [if_pos hsource, hanswer]
  simp only [hsaved]
  cases refused with
  | none => rfl
  | some refused => rfl

/-- With a table, the measures in front of the first that the store holds are saved. -/
theorem import_table (hsource : source.applicable = true) {table : Table}
    (hanswer : source.answer = .ok table) :
    let free := (publication project table).takeWhile (!session.store.holds ·)
    let grown : Session := { session with store := ⟨session.store.measures ++ free⟩ }
    (free = publication project table ∧ language.importFrom source project session =
        ⟨.imported table.files.length, grown, source.events ++
          [⟨.info, .importing, language.importedMessage table.files.length⟩]⟩) ∨
      ∃ refused rest, publication project table = free ++ refused :: rest ∧
        session.store.holds refused = true ∧
        language.importFrom source project session =
          language.fail grown (.publish ⟨refused.component, refused.metric⟩) source.events := by
  intro free grown
  have hsaved : session.store.saveAll (publication project table) = _ :=
    Store.save_all_eq (fun _ _ => rfl) (table.publication_apart project)
  cases hfind : (publication project table).find? session.store.holds with
  | none =>
      have hall : free = publication project table := by
        rw [List.takeWhile_eq_self_iff]
        simpa using List.find?_eq_none.mp hfind
      refine .inl ⟨hall, ?_⟩
      rw [hfind] at hsaved
      exact language.import_of_saved source project session hsource hanswer hsaved
  | some refused =>
      obtain ⟨hheld, before, rest, hsplit, hbefore⟩ := List.find?_eq_some_iff_append.mp hfind
      have hfree : free = before := by
        simp only [free]
        rw [hsplit, List.takeWhile_append_of_pos hbefore, List.takeWhile_cons_of_neg (by simpa using hheld),
          List.append_nil]
      refine .inr ⟨refused, rest, by rw [hfree, hsplit], hheld, ?_⟩
      rw [hfind] at hsaved
      exact language.import_of_saved source project session hsource hanswer hsaved

/-- How an import ends: there was nothing to import, it failed in a store that may have grown, or it is
complete. -/
theorem import_ends :
    let done := language.importFrom source project session
    (source.applicable = false ∧ done = ⟨.skipped, session,
        [⟨.debug, .importing, "No unit test results property. Skip import"⟩]⟩) ∨
      (source.applicable = true ∧ ∃ store error,
        done = language.fail { session with store := store } error source.events) ∨
      source.applicable = true ∧ ∃ store files, done = ⟨.imported files, { session with store := store },
        source.events ++ [⟨.info, .importing, language.importedMessage files⟩]⟩ := by
  intro done
  cases hsource : source.applicable with
  | false => exact .inl ⟨rfl, by simp [done, importFrom, hsource]⟩
  | true =>
      refine .inr ?_
      cases hanswer : source.answer with
      | error error =>
          exact .inl ⟨rfl, session.store, .aggregate error, by simp [done, importFrom, hsource, hanswer]⟩
      | ok table =>
          cases hsaved : session.store.saveAll (publication project table) with
          | mk store refused =>
              have hdone := language.import_of_saved source project session hsource hanswer hsaved
              cases refused with
              | some refused => exact .inl ⟨rfl, store, .publish refused, hdone⟩
              | none => exact .inr ⟨rfl, store, table.files.length, hdone⟩

/-- An import tells one event of its own, behind those of its source, and it is a warning if the import failed. -/
theorem import_events :
    let done := language.importFrom source project session
    ∃ own : Event, own.warns = decide (done.outcome = .failed) ∧
      done.events = (if source.applicable then source.events else []) ++ [own] := by
  intro done
  rcases language.import_ends source project session with
    ⟨hsource, hdone⟩ | ⟨hsource, store, error, hdone⟩ | ⟨hsource, store, files, hdone⟩ <;>
    rw [show done = _ from hdone, hsource] <;> exact ⟨_, rfl, rfl⟩

/-- Only a failed import warns the user, with the text of its language. -/
theorem import_warnings :
    let done := language.importFrom source project session
    done.session.warnings.texts =
      if done.outcome = .failed ∧ language.warning ∉ session.warnings.texts then
        session.warnings.texts ++ [language.warning]
      else session.warnings.texts := by
  intro done
  rcases language.import_ends source project session with
    ⟨-, hdone⟩ | ⟨-, store, error, hdone⟩ | ⟨-, store, files, hdone⟩ <;> rw [show done = _ from hdone]
  · simp
  · simp [fail, Warnings.texts_add]
  · simp

/-- What a store held in front of an import, it holds behind it. -/
theorem import_store_grows :
    session.store.measures <+: (language.importFrom source project session).session.store.measures := by
  cases hsource : source.applicable with
  | false => simp [importFrom, hsource]
  | true =>
      cases hanswer : source.answer with
      | error error => simp [importFrom, hsource, hanswer, fail]
      | ok table =>
          rcases language.import_table source project session hsource hanswer with
            ⟨-, hdone⟩ | ⟨refused, rest, -, -, hdone⟩ <;>
            rw [hdone] <;> exact List.prefix_append _ _

end Language

/-- What an import does to a session, whatever that holds. Without reports or without results the store
stays as it is. Otherwise the measures of the publication up to the first one that the store holds are added
at the end: if these are all of them, the import is complete with the number of source files, and otherwise
it fails and names the first that was held. A failed import tells one warning, its last event, and adds its
language's text to the session's warnings unless it is there; one that does not fail does neither. -/
theorem import_adds_free_measures (language : Language) (source : Source) (project : String)
    (session : Session) :
    let done := language.importFrom source project session
    (source.applicable = false → done.outcome = .skipped ∧ done.session.store = session.store) ∧
    (∀ error, source.applicable = true → source.answer = .error error →
      done.outcome = .failed ∧ done.session.store = session.store) ∧
    (∀ table, source.applicable = true → source.answer = .ok table →
      let measures := publication project table
      let free := measures.takeWhile (!session.store.holds ·)
      done.session.store.measures = session.store.measures ++ free ∧
      (free = measures ∧ done.outcome = .imported table.files.length ∨
        ∃ refused rest, measures = free ++ refused :: rest ∧ session.store.holds refused = true ∧
          done.outcome = .failed ∧
          done.events = source.events ++ [⟨.warn, .importing, "Could not import unit test report: '" ++
            DuplicateMeasure.message ⟨refused.component, refused.metric⟩ ++ "'"⟩])) ∧
    session.store.measures <+: done.session.store.measures ∧
    (∃ own : Event, own.warns = decide (done.outcome = .failed) ∧
      done.events = (if source.applicable then source.events else []) ++ [own]) ∧
    (∀ space reports, source = .ofReports space reports →
      done.events.countP Event.warns = if done.outcome = .failed then 1 else 0) ∧
    done.session.warnings.texts =
      if done.outcome = .failed ∧ language.warning ∉ session.warnings.texts then
        session.warnings.texts ++ [language.warning]
      else session.warnings.texts := by
  intro done
  have hown := language.import_events source project session
  refine ⟨fun hsource => ?_, fun error hsource hanswer => ?_, fun table hsource hanswer => ?_,
    language.import_store_grows source project session, hown, fun space reports hreports => ?_,
    language.import_warnings source project session⟩
  · simp [done, Language.importFrom, hsource]
  · simp [done, Language.importFrom, hsource, hanswer, Language.fail]
  · intro measures free
    rcases language.import_table source project session hsource hanswer with
      ⟨hall, hdone⟩ | ⟨refused, rest, hsplit, hheld, hdone⟩
    · rw [show done = _ from hdone]
      exact ⟨rfl, .inl ⟨hall, rfl⟩⟩
    · rw [show done = _ from hdone]
      refine ⟨rfl, .inr ⟨refused, rest, hsplit, hheld, rfl, ?_⟩⟩
      simp only [Language.fail, ImportError.chain, chainText, String.intercalate_singleton]
  · obtain ⟨own, hwarns, hevents⟩ := hown
    have hsilent : (if source.applicable then source.events else []).countP Event.warns = 0 := by
      rw [List.countP_eq_zero, hreports]
      intro event hevent
      split at hevent
      · simp [Source.of_reports_silent space reports event hevent]
      · cases hevent
    rw [hevents, List.countP_append, hsilent, List.countP_singleton, hwarns]
    simp [done]

/-- An import into a store that holds one figure of a file under another spelling of its path. -/
theorem held_figure_stops_import :
    let table := Table.empty.addRecord (.file ⟨"src/A.cs"⟩) ⟨.failed, none⟩
    let source : Source := ⟨true, .ok table, []⟩
    let session : Session := ⟨⟨[⟨.file ⟨"src//A.cs"⟩, .testFailures, 0⟩]⟩, .empty⟩
    let done := Language.cSharp.importFrom source "app" session
    done.session.store.measures = session.store.measures ++
      [⟨.file ⟨"src/A.cs"⟩, .tests, 1⟩, ⟨.file ⟨"src/A.cs"⟩, .skippedTests, 0⟩] := by
  intro table source session done
  have hfree : (publication "app" table).takeWhile (!session.store.holds ·) =
      [⟨.file ⟨"src/A.cs"⟩, .tests, 1⟩, ⟨.file ⟨"src/A.cs"⟩, .skippedTests, 0⟩] := by
    decide +kernel
  obtain ⟨-, -, hmeasures, -⟩ := import_adds_free_measures .cSharp source "app" session
  rw [(hmeasures table rfl rfl).1, hfree]

end TestMeasures
