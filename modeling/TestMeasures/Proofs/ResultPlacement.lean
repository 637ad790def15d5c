import TestMeasures.Proofs.TableMerge
import TestMeasures.Proofs.TestDefinitions

/-!
# Where results stand in a Visual Studio report

Results are settled when a document has been read, so it decides nothing where they stand among the
definitions, nor in which order (`results_stand_anywhere`). Two documents are compared by what can
be read of the attributes of their tags; each result is charged under the name that the last
definition of its test id gives, before or behind it.
-/

namespace TestMeasures

namespace Tag

variable {tag other : Tag} {name : String}

/-- Two tags have the same name and attributes: one value can be read of each attribute, or none. -/
def SameAttributes (tag other : Tag) : Prop :=
  tag.name = other.name ∧ ∀ name, (tag.optional name).toOption = (other.optional name).toOption

/-- A required attribute is one that the tag has. -/
theorem required_ok_iff {value : String} :
    tag.required name = .ok value ↔ tag.optional name = .ok (some value) := by
  unfold required
  cases tag.optional name with
  | error fault => simp
  | ok found => cases found <;> simp

namespace SameAttributes

/-- Tags with the same attributes have the same optional attributes. -/
theorem optional_iff (h : tag.SameAttributes other) {value : Option String} :
    tag.optional name = .ok value ↔ other.optional name = .ok value := by
  rw [← to_option_eq_some_iff, ← to_option_eq_some_iff, h.2 name]

/-- Tags with the same attributes have the same required attributes. -/
theorem required_iff (h : tag.SameAttributes other) {value : String} :
    tag.required name = .ok value ↔ other.required name = .ok value := by
  rw [required_ok_iff, required_ok_iff, h.optional_iff]

end SameAttributes

end Tag

/-- Tags with the same name and content have the same attributes. -/
theorem same_attributes_of_content {tags others : List Tag}
    (h : (tags.map fun tag => (tag.name, tag.content)) =
      others.map fun tag => (tag.name, tag.content)) :
    List.Forall₂ Tag.SameAttributes tags others := by
  rw [← List.forall₂_eq_eq_eq, List.forall₂_map_left_iff, List.forall₂_map_right_iff] at h
  refine h.imp fun tag other hsame => ?_
  obtain ⟨hname, hcontent⟩ := Prod.mk.inj hsame
  refine ⟨hname, fun name => ?_⟩
  simp only [Tag.optional, Tag.malformed, hname, hcontent]

/-- Related items that have the same property one by one all have it or not. -/
theorem forall₂_forall_iff {α β : Type} {relates : α → β → Prop} {holds : α → Prop}
    {holds' : β → Prop} {items : List α} {others : List β} (h : List.Forall₂ relates items others)
    (hholds : ∀ a b, relates a b → (holds a ↔ holds' b)) :
    (∀ item ∈ items, holds item) ↔ ∀ other ∈ others, holds' other := by
  induction h with
  | nil => simp
  | cons hhead _ ih => rw [List.forall_mem_cons, List.forall_mem_cons, hholds _ _ hhead, ih]

namespace VSTest

section transfer

variable {tag other : Tag}

/-- The duration of a result is that of its clock text, and there is none without a text. -/
theorem result_duration_ok_iff {duration : Option Count} :
    resultDuration tag = .ok duration ↔ tag.optional "duration" = .ok none ∧ duration = none ∨
      ∃ text time, tag.optional "duration" = .ok (some text) ∧ readClock? text = some time ∧
        duration = some time := by
  unfold resultDuration
  rw [except_bind_ok]
  constructor
  · rintro ⟨found, hfound, h⟩
    cases found with
    | none =>
        cases h
        exact .inl ⟨hfound, rfl⟩
    | some text =>
        cases htime : readClock? text with
        | none => simp [htime] at h
        | some time =>
            simp only [htime] at h
            cases h
            exact .inr ⟨text, time, hfound, htime, rfl⟩
  · rintro (⟨hfound, rfl⟩ | ⟨text, time, hfound, htime, rfl⟩)
    · exact ⟨none, hfound, rfl⟩
    · exact ⟨some text, hfound, by simp only [htime]; rfl⟩

/-- Results with the same attributes are kept alike. -/
theorem keeps_iff (h : tag.SameAttributes other) {kept : String × TestRecord} :
    Keeps tag kept ↔ Keeps other kept := by
  unfold Keeps
  simp only [result_duration_ok_iff, h.required_iff, h.optional_iff]

/-- Methods with the same attributes have the same name. -/
theorem names_iff (h : tag.SameAttributes other) {name : String} :
    Names tag name ↔ Names other name := by
  unfold Names
  simp only [h.required_iff, h.optional_iff]

end transfer

/-- Tests of two documents whose tags have the same attributes. -/
def SameTest (test other : Tag × Tag) : Prop :=
  test.1.SameAttributes other.1 ∧ test.2.SameAttributes other.2

/-- Tags with the same attributes define the same tests. -/
theorem test_methods_same {tags others : List Tag}
    (h : List.Forall₂ Tag.SameAttributes tags others) :
    List.Forall₂ SameTest (testMethods tags) (testMethods others) := by
  induction tags using testMethods.induct generalizing others with
  | case1 test method rest hnames ih =>
      obtain _ | ⟨htest, _ | ⟨hmethod, hrest⟩⟩ := h
      rw [test_methods_of_pair hnames.1 hnames.2,
        test_methods_of_pair (htest.1 ▸ hnames.1) (hmethod.1 ▸ hnames.2)]
      exact .cons ⟨htest, hmethod⟩ (ih hrest)
  | case2 test method rest hnames ih =>
      obtain _ | ⟨htest, _ | ⟨hmethod, hrest⟩⟩ := h
      rw [htest.1, hmethod.1] at hnames
      have := ih (.cons hmethod hrest)
      simpa only [testMethods, htest.1, hmethod.1, hnames, if_false] using this
  | case3 tags hshort =>
      cases h with
      | nil => exact .nil
      | cons _ hrest =>
          cases hrest with
          | nil => exact .nil
          | cons => exact absurd rfl (hshort _ _ _)

/-- Two documents have the same definitions in the same order, and the same results in any order. -/
structure SameTests (tags others : List Tag) : Prop where
  definitions : List.Forall₂ Tag.SameAttributes (definitionTags tags) (definitionTags others)
  results : ∃ shuffled, (resultTags tags).Perm shuffled ∧
    List.Forall₂ Tag.SameAttributes shuffled (resultTags others)

/-- The record of a result tag of a document, and its key: the source file, if it is known, of the
name that the last definition of its test id gives. -/
def Charged (map : MethodMap) (tags : List Tag) (tag : Tag) (entry : ResultKey × TestRecord) :
    Prop :=
  ∃ id name, Keeps tag (id, entry.2) ∧ LastDefinition tags id name ∧
    entry.1 = (attribution map name).1

namespace SameTests

variable {tags others : List Tag} {id name : String}

/-- The same tests are defined by the same test methods. -/
theorem tests (h : SameTests tags others) :
    List.Forall₂ SameTest (testMethods (definitionTags tags))
      (testMethods (definitionTags others)) :=
  test_methods_same h.definitions

/-- The same tests define the same ids. -/
theorem defined_iff (h : SameTests tags others) : Defined tags id ↔ Defined others id := by
  have hnone : (∀ test ∈ testMethods (definitionTags tags), ¬ test.1.required "id" = .ok id) ↔
      ∀ test ∈ testMethods (definitionTags others), ¬ test.1.required "id" = .ok id :=
    forall₂_forall_iff h.tests fun _ _ hsame => not_congr hsame.1.required_iff
  simpa [Defined] using not_congr hnone

/-- The same tests give an id the same last name. -/
theorem last_definition_iff (h : SameTests tags others) :
    LastDefinition tags id name ↔ LastDefinition others id name :=
  FirstSuch.congr (List.rel_reverse h.tests)
    (fun _ _ hsame => and_congr hsame.1.required_iff (names_iff hsame.2))
    fun _ _ hsame => not_congr hsame.1.required_iff

/-- The same holds of the results of both documents, whatever their order. -/
theorem results_iff (h : SameTests tags others) {holds : Tag → Prop}
    (hholds : ∀ tag other, tag.SameAttributes other → (holds tag ↔ holds other)) :
    (∀ tag ∈ resultTags tags, holds tag) ↔ ∀ tag ∈ resultTags others, holds tag := by
  obtain ⟨shuffled, hperm, hsame⟩ := h.results
  rw [← forall₂_forall_iff hsame hholds]
  simp only [hperm.mem_iff]

/-- Tags of the same tests are valid alike. -/
theorem valid_iff (h : SameTests tags others) : Valid tags ↔ Valid others := by
  have hresults : (∀ tag ∈ resultTags tags, ∃ kept, Keeps tag kept) ↔
      ∀ tag ∈ resultTags others, ∃ kept, Keeps tag kept :=
    h.results_iff fun _ _ hsame => exists_congr fun _ => keeps_iff hsame
  have htests :
      (∀ tag ∈ definitionTags tags, tag.name = "UnitTest" → ∃ id, tag.required "id" = .ok id) ↔
      ∀ tag ∈ definitionTags others, tag.name = "UnitTest" → ∃ id, tag.required "id" = .ok id := by
    refine forall₂_forall_iff h.definitions fun _ _ hsame => ?_
    rw [hsame.1]
    simp only [hsame.required_iff]
  have hmethods : (∀ test ∈ testMethods (definitionTags tags), ∃ name, Names test.2 name) ↔
      ∀ test ∈ testMethods (definitionTags others), ∃ name, Names test.2 name :=
    forall₂_forall_iff h.tests fun _ _ hsame => exists_congr fun _ => names_iff hsame.2
  exact ⟨fun ⟨r, t, m⟩ => ⟨hresults.mp r, htests.mp t, hmethods.mp m⟩,
    fun ⟨r, t, m⟩ => ⟨hresults.mpr r, htests.mpr t, hmethods.mpr m⟩⟩

/-- Results with the same attributes are charged alike. -/
theorem charged_unique (h : SameTests tags others) {map : MethodMap} {tag other : Tag}
    {entry entry' : ResultKey × TestRecord} (hsame : tag.SameAttributes other)
    (hentry : Charged map tags tag entry) (hentry' : Charged map others other entry') :
    entry = entry' := by
  obtain ⟨key, record⟩ := entry
  obtain ⟨key', record'⟩ := entry'
  obtain ⟨id, name, hkeeps, hlast, rfl⟩ := hentry
  obtain ⟨id', name', hkeeps', hlast', rfl⟩ := hentry'
  obtain ⟨rfl, rfl⟩ := Prod.mk.inj (((keeps_iff hsame).mp hkeeps).unique hkeeps')
  obtain rfl := (h.last_definition_iff.mp hlast).unique hlast'
  rfl

/-- The records of both documents are the same up to their order. -/
theorem charges_perm (h : SameTests tags others) {map : MethodMap}
    {entries entries' : List (ResultKey × TestRecord)}
    (hentries : List.Forall₂ (Charged map tags) (resultTags tags) entries)
    (hentries' : List.Forall₂ (Charged map others) (resultTags others) entries') :
    entries.Perm entries' := by
  obtain ⟨shuffled, hperm, hsame⟩ := h.results
  obtain ⟨moved, hmoved, hmovedPerm⟩ := List.perm_comp_forall₂ hperm.symm hentries
  suffices heq : moved = entries' from heq ▸ hmovedPerm.symm
  clear hperm hmovedPerm hentries
  generalize resultTags others = results at hsame hentries'
  induction hsame generalizing moved entries' with
  | nil =>
      cases hmoved
      cases hentries'
      rfl
  | cons hhead _ ih =>
      cases hmoved with
      | cons hentry hmoved =>
          cases hentries' with
          | cons hentry' hentries' =>
              rw [h.charged_unique hhead hentry hentry', ih _ hmoved hentries']

end SameTests

section document

variable {reading : Reading} {final : State} {tags : List Tag} {effects : List Effect}

/-- A document whose tags are valid is followed to its end. -/
theorem steps_of_valid (h : rules.Admits reading) (hvalid : Valid reading.tags) :
    let trace := rules.apply State.initial reading
    trace.fault = none ∧ rules.Steps State.initial reading.tags trace.effects trace.state := by
  have hnone := (apply_complete_iff h).mpr hvalid
  exact ⟨hnone, h.steps_of_no_fault hnone⟩

/-- A run through a whole document keeps its results, in document order. -/
theorem pending_keeps (h : rules.Steps State.initial tags effects final) :
    OnePerTag "UnitTestResult" (fun _ => Keeps) [] tags final.pending := by
  obtain ⟨-, results, hpending, hkeeps⟩ := steps_keep .empty h []
  rw [hpending]
  exact hkeeps

/-- Resolving fails for a test id exactly when the first dangling result has it. -/
theorem resolve_dangling_iff (h : rules.Steps State.initial tags effects final) {id : String} :
    resolve final final.pending = .error id ↔ FirstDangling tags id := by
  rw [resolve_error_iff]
  refine (FirstSuch.congr (pending_keeps h).forall₂ ?_ ?_).symm
  · rintro tag ⟨known, record⟩ ⟨word, hknown, -⟩
    rw [hknown, Except.ok.injEq]
    simp only [definition_eq_none_iff h]
  · rintro tag ⟨known, record⟩ ⟨word, hknown, -⟩
    simp only [hknown, Except.ok.injEq, exists_eq_left', defined_iff h]

/-- Results that can be resolved are charged as their definitions say. -/
theorem resolve_charged (h : rules.Steps State.initial tags effects final) {map : MethodMap}
    {charges : List Effect} (hcharges : resolve final final.pending = .ok charges) :
    List.Forall₂ (Charged map tags) (resultTags tags) (effectEntries map charges) := by
  have hcharged :
      OnePerTag "UnitTestResult" (fun _ => Charged map tags) [] tags
        (effectEntries map charges) := by
    refine (pending_keeps h).replace (resolve_charges hcharges) ?_
    rintro before tag ⟨id, record⟩ entry hkeeps ⟨name, hname, rfl⟩
    exact ⟨id, name, hkeeps, (definition_eq_some_iff h).mp hname, rfl⟩
  exact hcharged.forall₂

/-- There is a first dangling result when there is one at all. -/
theorem exists_first_dangling (hvalid : Valid tags) :
    (∃ id, FirstDangling tags id) ↔
      ∃ result ∈ resultTags tags, ∃ id, result.required "testId" = .ok id ∧ ¬ Defined tags id := by
  have hkept := hvalid.results
  unfold FirstDangling
  generalize resultTags tags = results at hkept ⊢
  induction results with
  | nil => simp [FirstSuch.nil_iff]
  | cons result results ih =>
      obtain ⟨⟨⟨known, record⟩, word, hknown, -⟩, hkept⟩ := List.forall_mem_cons.mp hkept
      simp only at hknown
      simp only [FirstSuch.cons_iff, List.mem_cons, exists_eq_or_imp, ← ih hkept, hknown,
        Except.ok.injEq, exists_eq_left', exists_or]
      by_cases hdefined : Defined tags known <;> simp [hdefined]

/-- How the settling of a document ends: at the first dangling result, if there is one. -/
theorem settle_fault_iff (h : rules.Admits reading) :
    let settled := settle (rules.apply State.initial reading)
    (settled.fault = none ↔ Valid reading.tags ∧ ∀ id, ¬ FirstDangling reading.tags id) ∧
      ∀ id, settled.fault = some (.unknownTest id) ↔
        Valid reading.tags ∧ FirstDangling reading.tags id := by
  unfold settle
  rcases rules.apply_admitted h State.initial with
    ⟨hnone, hsteps⟩ | hrefuses
  · have hvalid : Valid reading.tags := (apply_complete_iff h).mp hnone
    simp only [hnone, hvalid, true_and, ← resolve_dangling_iff hsteps]
    generalize resolve _ (rules.apply State.initial reading).state.pending = resolved
    cases resolved <;> simp
  · obtain ⟨position, fault, hfault⟩ := hrefuses.fault
    have hvalid : ¬ Valid reading.tags := by
      rw [← apply_complete_iff h, hfault]
      simp
    simp [hfault, hvalid]

/-- A document is settled exactly when its tags are valid and every result has a definition. -/
theorem settle_complete_iff (h : rules.Admits reading) :
    (settle (rules.apply State.initial reading)).fault = none ↔
      Valid reading.tags ∧ ∀ result ∈ resultTags reading.tags,
        ∀ id, result.required "testId" = .ok id → Defined reading.tags id := by
  refine (settle_fault_iff h).1.trans (and_congr_right fun hvalid => ?_)
  rw [← not_exists, exists_first_dangling hvalid]
  simp only [not_exists, not_and, not_not]

/-- A document that is settled charges one record for each of its results. -/
theorem settle_charged (h : rules.Admits reading) (map : MethodMap)
    (hnone : (settle (rules.apply State.initial reading)).fault = none) :
    List.Forall₂ (Charged map reading.tags) (resultTags reading.tags)
      (effectEntries map (settle (rules.apply State.initial reading)).effects) := by
  obtain ⟨-, hsteps⟩ := steps_of_valid h ((settle_fault_iff h).1.mp hnone).1
  obtain ⟨hnothing, -⟩ := steps_keep map hsteps []
  obtain ⟨-, charges, hcharges, hentries⟩ := (settle_cases hnothing).1 hnone
  rw [hentries]
  exact resolve_charged hsteps hcharges

/-- Two documents with the same tests are both settled or both not. -/
theorem SameTests.settle_iff {other : Reading} (hsame : SameTests reading.tags other.tags)
    (h : rules.Admits reading) (h' : rules.Admits other) :
    (settle (rules.apply State.initial reading)).fault = none ↔
      (settle (rules.apply State.initial other)).fault = none := by
  rw [settle_complete_iff h, settle_complete_iff h', hsame.valid_iff]
  simp only [hsame.defined_iff]
  refine and_congr_right fun _ => hsame.results_iff fun _ _ hsimilar => ?_
  simp only [hsimilar.required_iff]

end document

/-- What is wrong with a report is what is wrong with the settling of its document. -/
theorem parse_failure_eq (path : Path) (bytes : List UInt8) (map : MethodMap) (table : Table) :
    (Dialect.vstest.parse path bytes map table).failure =
      (settle (rules.apply State.initial (Reading.ofBytes bytes))).fault.map (⟨path, ·⟩) := rfl

end VSTest

open VSTest in
/-- Take two documents with the same definitions in the same order and the same results in any
order, standing among the definitions in any way. One can be parsed exactly when the other can, and
then both charge the same records, so that tables that agreed before do so afterwards. Each record
is charged under the name that the last definition of its test id in the whole document gives. The
only fault that depends on the definitions of a valid document is that of its first result without
one. -/
theorem results_stand_anywhere (path path' : Path) (map : MethodMap) {bytes bytes' : List UInt8}
    (hdocument : rules.Admits (Reading.ofBytes bytes))
    (hdocument' : rules.Admits (Reading.ofBytes bytes'))
    (hsame : SameTests (Reading.ofBytes bytes).tags (Reading.ofBytes bytes').tags)
    {table table' : Table} (hagrees : table.agrees table' = true) :
    let tags := (Reading.ofBytes bytes).tags
    let tags' := (Reading.ofBytes bytes').tags
    let parsed := Dialect.vstest.parse path bytes map table
    let parsed' := Dialect.vstest.parse path' bytes' map table'
    (parsed.failure = none ↔ parsed'.failure = none) ∧
      (parsed.failure = none → parsed.table.agrees parsed'.table = true ∧
        ∃ entries entries', entries.Perm entries' ∧
          List.Forall₂ (Charged map tags) (resultTags tags) entries ∧
          List.Forall₂ (Charged map tags') (resultTags tags') entries' ∧
          parsed.table = table.addEntries entries ∧ parsed'.table = table'.addEntries entries') ∧
      (∀ id, parsed.failure = some ⟨path, .unknownTest id⟩ → FirstDangling tags id) ∧
      ((∃ id, parsed.failure = some ⟨path, .unknownTest id⟩) ↔
        Valid tags ∧ ∃ result ∈ resultTags tags, ∃ id,
          result.required "testId" = .ok id ∧ ¬ Defined tags id) := by
  intro tags tags' parsed parsed'
  have hfailure : parsed.failure = none ↔
      (settle (rules.apply State.initial (Reading.ofBytes bytes))).fault = none :=
    Option.map_eq_none_iff
  have hfailure' : parsed'.failure = none ↔
      (settle (rules.apply State.initial (Reading.ofBytes bytes'))).fault = none :=
    Option.map_eq_none_iff
  have hunknown :
      ∀ id, parsed.failure = some ⟨path, .unknownTest id⟩ ↔ Valid tags ∧ FirstDangling tags id := by
    intro id
    rw [← (settle_fault_iff hdocument).2 id, parse_failure_eq, Option.map_eq_some_iff]
    simp
  have hboth : parsed.failure = none ↔ parsed'.failure = none := by
    rw [hfailure, hfailure', hsame.settle_iff hdocument hdocument']
  refine ⟨hboth, fun hnone => ?_, fun id h => ((hunknown id).mp h).2, ?_⟩
  · have hentries := settle_charged hdocument map (hfailure.mp hnone)
    have hentries' := settle_charged hdocument' map (hfailure'.mp (hboth.mp hnone))
    have hperm := hsame.charges_perm hentries hentries'
    exact ⟨Table.add_entries_agrees hagrees hperm, _, _, hperm, hentries, hentries', rfl, rfl⟩
  · simp only [hunknown, exists_and_left]
    exact and_congr_right fun hvalid => exists_first_dangling hvalid

namespace VSTest

/-- A report with its results before the definitions, the first of which is replaced by the last. -/
def resultsFirst : List UInt8 :=
  ["<TestRun>",
    "<UnitTestResult testId='a' ", "outcome='Passed'/>",
    "<UnitTestResult testId='b' ", "outcome='Failed' ", "duration='00:00:01'/>",
    "<UnitTest id='a'>", "<TestMethod ", "className='Old' name='m'/>", "</UnitTest>",
    "<UnitTest id='b'>", "<TestMethod ", "className='C' name='n'/>", "</UnitTest>",
    "<UnitTest id='a'>", "<TestMethod ", "className='C' name='m(1)'/>", "</UnitTest>",
    "</TestRun>"].flatMap Text.Utf8.encode

/-- The same report with the results among the definitions, in the other order. -/
def resultsAmong : List UInt8 :=
  ["<TestRun>",
    "<UnitTest id='a'>", "<TestMethod ", "className='Old' name='m'/>", "</UnitTest>",
    "<UnitTest id='b'>",
    "<UnitTestResult testId='b' ", "outcome='Failed' ", "duration='00:00:01'/>",
    "<TestMethod ", "className='C' name='n'/>", "</UnitTest>",
    "<UnitTestResult testId='a' ", "outcome='Passed'/>",
    "<UnitTest id='a'>", "<TestMethod ", "className='C' name='m(1)'/>", "</UnitTest>",
    "</TestRun>"].flatMap Text.Utf8.encode

/-- The report with its results first can be read to its end below a root tag. -/
theorem results_first_admitted : rules.Admits (Reading.ofBytes resultsFirst) where
  complete := by decide +kernel
  rooted := by decide +kernel
  roots := by decide +kernel

/-- The report with its results among the definitions can be read to its end below a root tag. -/
theorem results_among_admitted : rules.Admits (Reading.ofBytes resultsAmong) where
  complete := by decide +kernel
  rooted := by decide +kernel
  roots := by decide +kernel

/-- Both reports have the same definitions and the same results, in another order. -/
theorem same_tests_moved :
    SameTests (Reading.ofBytes resultsFirst).tags (Reading.ofBytes resultsAmong).tags where
  definitions := same_attributes_of_content (by decide +kernel)
  results := ⟨_, (List.reverse_perm _).symm, same_attributes_of_content (by decide +kernel)⟩

end VSTest

/-- The results of one report among its definitions are charged as they are in front of them. -/
theorem moved_results_charged_alike :
    let map := MethodMap.ofList [("C.m", ⟨"C.cs"⟩)]
    let parsed := Dialect.vstest.parse ⟨"a.trx"⟩ VSTest.resultsFirst map .empty
    let parsed' := Dialect.vstest.parse ⟨"b.trx"⟩ VSTest.resultsAmong map .empty
    VSTest.rules.Admits (Reading.ofBytes VSTest.resultsFirst) ∧
      VSTest.rules.Admits (Reading.ofBytes VSTest.resultsAmong) ∧
      VSTest.SameTests (Reading.ofBytes VSTest.resultsFirst).tags
        (Reading.ofBytes VSTest.resultsAmong).tags ∧
      parsed.failure = none ∧ parsed.table.agrees parsed'.table = true ∧
      parsed.table.file? ⟨"C.cs"⟩ = some (Counts.ofRecord ⟨.passed, none⟩) := by
  intro map parsed parsed'
  have hfirst := VSTest.results_first_admitted
  have hamong := VSTest.results_among_admitted
  have hsame := VSTest.same_tests_moved
  have hnone : parsed.failure = none := by decide +kernel
  obtain ⟨-, hcharged, -⟩ :=
    results_stand_anywhere ⟨"a.trx"⟩ ⟨"b.trx"⟩ map hfirst hamong hsame (Table.agrees_refl .empty)
  exact ⟨hfirst, hamong, hsame, hnone, (hcharged hnone).1, by decide +kernel⟩

end TestMeasures
