import TestMeasures.Proofs.DocumentTags
import TestMeasures.Proofs.RuleRuns
import TestMeasures.Proofs.TableMerge
import TestMeasures.Report.Dialect

/-!
# One record for each test of a report

`parse_accounts_for_tests` says what parsing adds to a table: one record for each test tag of the document
when it succeeds, and otherwise one for each test tag before the place where it stops, or none in the
dialect that settles its results in the end.
-/

namespace TestMeasures

/-- What the last of some tags has that has anything. -/
def lastGiven (given? : Tag → Option String) (tags : List Tag) : Option String :=
  (tags.filterMap given?).getLast?

/-- The last text given by tags is that of the last tag, or the last one given before it. -/
theorem last_given_append (given? : Tag → Option String) (before : List Tag) (tag : Tag) :
    lastGiven given? (before ++ [tag]) = (given? tag).or (lastGiven given? before) := by
  unfold lastGiven
  cases h : given? tag <;> simp [h]

namespace XUnit

/-- The short name of the assembly that a tag opens, if it opens one. -/
def assembly? (tag : Tag) : Option String :=
  if tag.name = "assembly" then (tag.required "name").toOption.map assemblyQualifier else none

/-- The record of a test tag behind other tags, and its key. -/
def Gives (map : MethodMap) (before : List Tag) (tag : Tag) (entry : ResultKey × TestRecord) : Prop :=
  ∃ word name, tag.required "result" = .ok word ∧ outcome? word = some entry.2.outcome ∧
    tag.seconds "time" = .ok entry.2.duration ∧ tag.required "name" = .ok name ∧
    entry.1 = (attribution map (qualifiedName (lastGiven assembly? before) name)).1

/-- Nothing follows from a tag that is refused. -/
theorem discards : rules.Discards :=
  Rules.discards_of_reading (by simp [rules, assembly, test])

/-- An `assembly` leads to its short name, and a `test` is one record. -/
theorem tallies (map : MethodMap) : rules.Tallies map "test" (lastGiven assembly?) (Gives map) where
  ignored before tag hhandler := by
    have hnames := Rules.handler_none hhandler
    have hassembly : tag.name ≠ "assembly" := hnames ("assembly", assembly) (by simp [rules])
    refine ⟨hnames ("test", test) (by simp [rules]), ?_⟩
    simp [last_given_append, assembly?, hassembly]
  handled before tag handler after effects hhandler hstep := by
    have hmem := Rules.handler_mem hhandler
    simp only [rules, List.mem_cons, Prod.mk.injEq, List.not_mem_nil, or_false] at hmem
    rcases hmem with ⟨hname, rfl⟩ | ⟨hname, rfl⟩
    · obtain ⟨name, hrequired, hresult⟩ := except_bind_ok.mp (Handler.reading_ok_iff.mp hstep)
      cases hresult
      refine ⟨?_, .inr ⟨by simp [hname], rfl⟩⟩
      simp [last_given_append, assembly?, hname, hrequired, Except.toOption]
    · obtain ⟨word, hword, hstep⟩ := except_bind_ok.mp (Handler.reading_ok_iff.mp hstep)
      obtain ⟨duration, hduration, hstep⟩ := except_bind_ok.mp hstep
      obtain ⟨name, hrequired, hstep⟩ := except_bind_ok.mp hstep
      cases houtcome : outcome? word with
      | none => simp [houtcome] at hstep
      | some outcome =>
          simp only [houtcome] at hstep
          cases hstep
          refine ⟨by simp [last_given_append, assembly?, hname], .inl ⟨hname, _, rfl, ?_⟩⟩
          exact ⟨word, name, hword, houtcome, hduration, hrequired, rfl⟩

end XUnit

namespace NUnit

/-- The short name of the assembly that a suite stands for, if it stands for one. -/
def assembly? (tag : Tag) : Option String :=
  if tag.name = "test-suite" ∧ (tag.optional "type").toOption = some (some "Assembly") then
    (tag.required "name").toOption.map assemblyQualifier
  else none

/-- The record of a test case behind other tags, and its key. -/
def Gives (map : MethodMap) (before : List Tag) (tag : Tag) (entry : ResultKey × TestRecord) : Prop :=
  ∃ name word label executed, caseName tag = .ok name ∧ tag.required "result" = .ok word ∧
    tag.optional "label" = .ok label ∧ tag.flag "executed" = .ok executed ∧
    (if executed = some false then some .skipped else outcome? word label) = some entry.2.outcome ∧
    caseDuration tag = .ok entry.2.duration ∧
    entry.1 = (attribution map (qualifiedName (lastGiven assembly? before) name)).1

/-- Nothing follows from a tag that is refused. -/
theorem discards : rules.Discards :=
  Rules.discards_of_reading (by simp [rules, suite, case])

/-- A suite that is an assembly leads to its short name, and a test case is one record. -/
theorem tallies (map : MethodMap) : rules.Tallies map "test-case" (lastGiven assembly?) (Gives map) where
  ignored before tag hhandler := by
    have hnames := Rules.handler_none hhandler
    have hsuite : tag.name ≠ "test-suite" := hnames ("test-suite", suite) (by simp [rules])
    refine ⟨hnames ("test-case", case) (by simp [rules]), ?_⟩
    simp [last_given_append, assembly?, hsuite]
  handled before tag handler after effects hhandler hstep := by
    have hmem := Rules.handler_mem hhandler
    simp only [rules, List.mem_cons, Prod.mk.injEq, List.not_mem_nil, or_false] at hmem
    rcases hmem with ⟨hname, rfl⟩ | ⟨hname, rfl⟩
    · obtain ⟨kind, hkind, hstep⟩ := except_bind_ok.mp (Handler.reading_ok_iff.mp hstep)
      split at hstep
      case isTrue hassembly =>
        subst hassembly
        obtain ⟨name, hrequired, hresult⟩ := except_bind_ok.mp hstep
        cases hresult
        refine ⟨?_, .inr ⟨by simp [hname], rfl⟩⟩
        simp [last_given_append, assembly?, hname, hkind, hrequired, Except.toOption]
      case isFalse hother =>
        cases hstep
        refine ⟨?_, .inr ⟨by simp [hname], rfl⟩⟩
        simp [last_given_append, assembly?, hkind, hother, Except.toOption]
    · obtain ⟨name, hcase, hstep⟩ := except_bind_ok.mp (Handler.reading_ok_iff.mp hstep)
      obtain ⟨word, hword, hstep⟩ := except_bind_ok.mp hstep
      obtain ⟨label, hlabel, hstep⟩ := except_bind_ok.mp hstep
      obtain ⟨executed, hexecuted, hstep⟩ := except_bind_ok.mp hstep
      obtain ⟨duration, hduration, hstep⟩ := except_bind_ok.mp hstep
      simp only at hstep
      split at hstep
      case h_1 => cases hstep
      case h_2 outcome houtcome =>
        cases hstep
        refine ⟨by simp [last_given_append, assembly?, hname], .inl ⟨hname, _, rfl, ?_⟩⟩
        exact ⟨name, word, label, executed, hcase, hword, hlabel, hexecuted, houtcome, hduration, rfl⟩

end NUnit

namespace VSTest

/-- The result that a tag keeps, with its test id. -/
def Keeps (tag : Tag) (result : String × TestRecord) : Prop :=
  ∃ word, tag.required "testId" = .ok result.1 ∧ tag.required "outcome" = .ok word ∧
    outcome? word = some result.2.outcome ∧ resultDuration tag = .ok result.2.duration

/-- The record of a result, and its key under the definition that a state has for its test id. -/
def Gives (map : MethodMap) (state : State) (tag : Tag) (entry : ResultKey × TestRecord) : Prop :=
  ∃ id name, Keeps tag (id, entry.2) ∧ state.definition? id = some name ∧
    entry.1 = (attribution map name).1

/-- A refused tag leaves the state in front of it, but a method has taken the test that it would define. -/
theorem refused_trace {tag : Tag} {state : State} {handler : Handler State} {refusal : TagRefusal State}
    (hhandler : rules.handler? tag.name = some handler) (h : handler tag state = .error refusal) :
    refusal.trace tag state = ⟨if tag.name = "TestMethod" then { state with currentId := none } else state, [],
      some (.tag tag.position refusal.fault)⟩ := by
  have hmem := Rules.handler_mem hhandler
  simp only [rules, List.mem_cons, Prod.mk.injEq, List.not_mem_nil, or_false] at hmem
  rcases hmem with ⟨hname, rfl⟩ | ⟨hname, rfl⟩ | ⟨hname, rfl⟩
  · rw [Handler.reading_trace h, if_neg (by simp [hname])]
  · rw [Handler.reading_trace h, if_neg (by simp [hname])]
  · unfold testMethod at h
    split at h
    case h_1 => cases h
    case h_2 =>
      split at h
      case h_2 => cases h
      case h_1 =>
        cases h
        rw [if_pos hname]
        rfl

/-- Nothing follows from a tag that is refused. -/
theorem discards : rules.Discards := by
  intro tag state handler refusal hhandler h
  rw [refused_trace hhandler h]

/-- A run keeps one result for each of its test tags, and charges nothing. -/
theorem steps_keep (map : MethodMap) {state final : State} {tags : List Tag} {effects : List Effect}
    (h : rules.Steps state tags effects final) (before : List Tag) :
    effectEntries map effects = [] ∧ ∃ results, final.pending = state.pending ++ results ∧
      OnePerTag "UnitTestResult" (fun _ => Keeps) before tags results := by
  induction h generalizing before with
  | nil => exact ⟨rfl, [], by simp, .nil _⟩
  | @ignore _ _ tag _ _ hhandler hrest ih =>
      have hname : tag.name ≠ "UnitTestResult" :=
        Rules.handler_none hhandler ("UnitTestResult", result) (by simp [rules])
      obtain ⟨hentries, results, hpending, hkeeps⟩ := ih (before ++ [tag])
      exact ⟨hentries, results, hpending, .other hname hkeeps⟩
  | @handle _ after _ tag _ _ _ handler hhandler hstep hrest ih =>
      obtain ⟨hentries, results, hpending, hkeeps⟩ := ih (before ++ [tag])
      rw [Rules.effect_entries_append, hentries, List.append_nil, hpending]
      have hmem := Rules.handler_mem hhandler
      simp only [rules, List.mem_cons, Prod.mk.injEq, List.not_mem_nil, or_false] at hmem
      rcases hmem with ⟨hname, rfl⟩ | ⟨hname, rfl⟩ | ⟨hname, rfl⟩
      · obtain ⟨id, hid, hstep⟩ := except_bind_ok.mp (Handler.reading_ok_iff.mp hstep)
        obtain ⟨word, hword, hstep⟩ := except_bind_ok.mp hstep
        cases houtcome : outcome? word with
        | none => simp [houtcome] at hstep
        | some outcome =>
            simp only [houtcome] at hstep
            obtain ⟨duration, hduration, hstep⟩ := except_bind_ok.mp hstep
            cases hstep
            refine ⟨rfl, (id, ⟨outcome, duration⟩) :: results, by simp, .named hname ?_ hkeeps⟩
            exact ⟨word, hid, hword, houtcome, hduration⟩
      · obtain ⟨id, hid, hstep⟩ := except_bind_ok.mp (Handler.reading_ok_iff.mp hstep)
        cases hstep
        exact ⟨rfl, results, rfl, .other (by simp [hname]) hkeeps⟩
      · unfold testMethod at hstep
        split at hstep
        case h_1 =>
          cases hstep
          exact ⟨rfl, results, rfl, .other (by simp [hname]) hkeeps⟩
        case h_2 =>
          split at hstep
          case h_1 => cases hstep
          case h_2 =>
            cases hstep
            exact ⟨rfl, results, rfl, .other (by simp [hname]) hkeeps⟩

/-- Results that can be resolved are charged one by one, under the names of their definitions. -/
theorem resolve_charges {map : MethodMap} {state : State} {results : List (String × TestRecord)}
    {charges : List Effect} (h : resolve state results = .ok charges) :
    List.Forall₂ (fun result entry => ∃ name, state.definition? result.1 = some name ∧
      entry = ((attribution map name).1, result.2)) results (effectEntries map charges) := by
  induction results generalizing charges with
  | nil =>
      cases h
      exact .nil
  | cons result rest ih =>
      obtain ⟨id, record⟩ := result
      unfold resolve at h
      split at h
      case h_1 => cases h
      case h_2 name hname =>
        cases hrest : resolve state rest with
        | error unknown => simp [hrest, Except.map] at h
        | ok others =>
            simp only [hrest, Except.map] at h
            cases h
            exact .cons ⟨name, hname, rfl⟩ (ih hrest)

/-- Settling charges the results of a document without a fault if every one can be resolved, and otherwise
nothing. -/
theorem settle_cases {map : MethodMap} {trace : Trace State} (hnothing : effectEntries map trace.effects = []) :
    ((settle trace).fault = none → trace.fault = none ∧
      ∃ charges, resolve trace.state trace.state.pending = .ok charges ∧
        effectEntries map (settle trace).effects = effectEntries map charges) ∧
    ∀ fault, (settle trace).fault = some fault → effectEntries map (settle trace).effects = [] := by
  unfold settle
  cases hfault : trace.fault with
  | some fault => exact ⟨fun hnone => by simp [hfault] at hnone, fun _ _ => hnothing⟩
  | none =>
      cases hcharges : resolve trace.state trace.state.pending with
      | error id => exact ⟨nofun, fun _ _ => hnothing⟩
      | ok charges =>
          refine ⟨fun _ => ⟨rfl, charges, rfl, ?_⟩, fun fault hsome => ?_⟩
          · simp only [Rules.effect_entries_append, hnothing, List.nil_append]
          · simp at hsome

end VSTest

open Xml (Parser Markup)

/-- Where a fault stops the reading of tags: before the tag that it is about or, when the document itself
is at fault, behind all of them at its last event. -/
def ReportFault.StopsAt (fault : ReportFault) (roots : List String) (last : Markup.Event) (done rest : List Tag) :
    Prop :=
  match fault with
  | .tag position _ => ∃ tag others, rest = tag :: others ∧ tag.position = position
  | .unexpectedRoot found _ =>
    (∀ tag ∈ done, tag.depth = 0 → tag.name ∈ roots) ∧
      ∃ tag others, rest = tag :: others ∧ tag.depth = 0 ∧ tag.name = found ∧ found ∉ roots
  | .xml position reason => rest = [] ∧ last = .fault position reason
  | .unclosed _ => rest = [] ∧ last = .finished
  | .noRoot _ => rest = [] ∧ last = .finished ∧ ∀ tag ∈ done, tag.depth ≠ 0
  | .unopened _ | .unread _ | .unknownTest _ => False

/-- Rules stop where their fault belongs. -/
theorem Rules.Stops.stops_at {σ : Type} {rules : Rules σ} {depth : Nat} {last : Markup.Event}
    (hlast : last.isLast = true) {state : σ} {done rest : List Tag} {left : Trace σ}
    (h : rules.Stops (last.ending depth) false state done rest left)
    (hroots : ∀ tag ∈ done, tag.depth = 0 → tag.name ∈ rules.roots) :
    ∀ found, left.fault = some found → found.StopsAt rules.roots last done rest := by
  intro found hfound
  cases h with
  | complete => cases hfound
  | noRoot hending _ hdepth =>
      cases hfound
      cases last with
      | fault position reason => cases hending
      | finished => exact ⟨rfl, rfl, hdepth⟩
      | opened | empty | closed | other => cases hlast
  | broken fault hending =>
      cases hfound
      cases last with
      | fault position reason =>
          cases hending
          exact ⟨rfl, rfl⟩
      | finished =>
          simp only [Markup.Event.ending] at hending
          split at hending <;> cases hending
          exact ⟨rfl, rfl⟩
      | opened | empty | closed | other => cases hlast
  | unexpected tag others hdepth hname =>
      cases hfound
      exact ⟨hroots, tag, others, rfl, hdepth, rfl, hname⟩
  | refused tag others =>
      cases hfound
      exact ⟨tag, others, rfl, rfl⟩

/-- Rules that record tests at once have recorded the test tags up to where they stop. -/
theorem Rules.Tallies.apply {σ : Type} {rules : Rules σ} {map : MethodMap} {name : String}
    {stateBehind : List Tag → σ} {gives : List Tag → Tag → ResultKey × TestRecord → Prop}
    (htallies : rules.Tallies map name stateBehind gives) (hdiscards : rules.Discards) {last : Markup.Event}
    (hlast : last.isLast = true) (tags : List Tag) (depth : Nat) :
    let trace := rules.apply (stateBehind []) ⟨tags, last.ending depth⟩
    ∃ done rest, tags = done ++ rest ∧
      OnePerTag name gives [] done (effectEntries map trace.effects) ∧
      (trace.fault = none → rest = []) ∧
      ∀ found, trace.fault = some found → found.StopsAt rules.roots last done rest := by
  intro trace
  obtain ⟨done, rest, effects, middle, left, htags, hsteps, hroots, hstops, htrace⟩ :=
    rules.follow_run (last.ending depth) false (stateBehind []) tags
  change trace = left.behind effects at htrace
  rw [htrace, Trace.behind, hstops.no_effects hdiscards, List.append_nil]
  exact ⟨done, rest, htags, hsteps.tally htallies, fun hnone => (hstops.of_no_fault hnone).1,
    hstops.stops_at hlast hroots⟩

/-- Adding records adds their number to the number of tests. -/
theorem Table.total_add_entries (table : Table) (entries : List (ResultKey × TestRecord)) :
    (table.addEntries entries).total.tests = table.total.tests + Count.clamp entries.length := by
  induction entries generalizing table with
  | nil =>
      ext
      have hle := table.total.tests.le_limit
      simp only [addEntries, List.foldl_nil, List.length_nil, Count.val_add, Count.clamp, Count.limit]
      omega
  | cons entry rest ih =>
      have hfirst : (table.add entry.1 (Counts.ofRecord entry.2)).total.tests =
          table.total.tests + 1 := by
        rw [total_add]
        rfl
      have hclamp : Count.clamp (rest.length + 1) = 1 + Count.clamp rest.length := by
        rw [← Count.sum_replicate_one, List.replicate_succ, List.sum_cons, Count.sum_replicate_one]
      rw [Table.add_entries_cons, ih, hfirst, Count.add_assoc, ← hclamp, List.length_cons]

namespace Dialect

/-- The name of the tags that stand for one test each. -/
def testTag : Dialect → String
  | .xunit => "test"
  | .nunit => "test-case"
  | .vstest => "UnitTestResult"

/-- The tags that a document may start with. -/
def roots : Dialect → List String
  | .xunit => XUnit.rules.roots
  | .nunit => NUnit.rules.roots
  | .vstest => VSTest.rules.roots

/-- The record of a test tag of a document behind other tags, and its key: the source file of the test or,
if none is known, the unattributed row. -/
def Gives (dialect : Dialect) (map : MethodMap) (bytes : List UInt8) (before : List Tag) (tag : Tag)
    (entry : ResultKey × TestRecord) : Prop :=
  match dialect with
  | .xunit => XUnit.Gives map before tag entry
  | .nunit => NUnit.Gives map before tag entry
  | .vstest =>
    VSTest.Gives map (VSTest.rules.apply VSTest.State.initial (Reading.ofBytes bytes)).state tag entry

/-- A table has gained one record for each test tag among tags, and the number of its tests has grown by
their number. -/
def Gains (dialect : Dialect) (map : MethodMap) (bytes : List UInt8) (tags : List Tag)
    (table after : Table) : Prop :=
  ∃ entries, OnePerTag dialect.testTag (dialect.Gives map bytes) [] tags entries ∧
    after = table.addEntries entries ∧
    after.total.tests = table.total.tests + Count.clamp (tags.countP (·.name == dialect.testTag))

variable {dialect : Dialect} {map : MethodMap} {bytes : List UInt8} {tags : List Tag}

/-- A table gains what tags give it one by one. -/
theorem gains_of_entries {entries : List (ResultKey × TestRecord)}
    (h : OnePerTag dialect.testTag (dialect.Gives map bytes) [] tags entries) (table : Table) :
    dialect.Gains map bytes tags table (table.addEntries entries) :=
  ⟨entries, h, rfl, by rw [Table.total_add_entries, h.length_eq]⟩

/-- Where parsing a document stops, and what it has added by then, in a dialect that records tests at
once. -/
theorem gains_at_once (dialect : Dialect) {σ : Type} {rules : Rules σ} {stateBehind : List Tag → σ}
    (htallies : rules.Tallies map dialect.testTag stateBehind (dialect.Gives map bytes))
    (hdiscards : rules.Discards) {last : Markup.Event} (hlast : last.isLast = true) {depth : Nat}
    (hreading : Reading.ofBytes bytes = ⟨tags, last.ending depth⟩)
    (haccount : dialect.account (Reading.ofBytes bytes) =
      (rules.apply (stateBehind []) (Reading.ofBytes bytes)).account)
    (path : Path) (table : Table) :
    let parsed := dialect.parse path bytes map table
    (parsed.failure = none → dialect.Gains map bytes tags table parsed.table) ∧
      ∀ error, parsed.failure = some error → error.path = path ∧
        ∃ done rest, tags = done ++ rest ∧ error.fault.StopsAt rules.roots last done rest ∧
          dialect.Gains map bytes done table parsed.table := by
  obtain ⟨done, rest, htags, hrecords, hcomplete, hstops⟩ := htallies.apply hdiscards hlast tags depth
  rw [← hreading] at hrecords hcomplete hstops
  have hgains := gains_of_entries hrecords table
  simp only [parse, haccount, Trace.account, Account.addTo, Table.applyEffects]
  refine ⟨fun hnone => ?_, fun error herror => ?_⟩
  · obtain rfl := hcomplete (Option.map_eq_none_iff.mp hnone)
    rw [htags, List.append_nil]
    exact hgains
  · obtain ⟨fault, hfault, rfl⟩ := Option.map_eq_some_iff.mp herror
    exact ⟨rfl, done, rest, htags, hstops fault hfault, hgains⟩

/-- What parsing a document adds in the dialect that settles its results in the end: all of them or none. -/
theorem gains_in_the_end {last : Markup.Event} {depth : Nat}
    (hreading : Reading.ofBytes bytes = ⟨tags, last.ending depth⟩) (path : Path) (table : Table) :
    let parsed := vstest.parse path bytes map table
    (parsed.failure = none → vstest.Gains map bytes tags table parsed.table) ∧
      ∀ error, parsed.failure = some error → error.path = path ∧ parsed.table = table := by
  obtain ⟨done, rest, effects, middle, left, htags, hsteps, hroots, hstops, hfollow⟩ :=
    VSTest.rules.follow_run (last.ending depth) false VSTest.State.initial tags
  -- The rules only keep results, in document order; settling turns each of them into one record.
  have htrace : VSTest.rules.apply VSTest.State.initial (Reading.ofBytes bytes) = left.behind effects := by
    rw [hreading]
    exact hfollow
  obtain ⟨hnone, results, hpending, hkeeps⟩ := VSTest.steps_keep map hsteps []
  have hnothing : effectEntries map
      (VSTest.rules.apply VSTest.State.initial (Reading.ofBytes bytes)).effects = [] := by
    rw [htrace, Trace.behind, hstops.no_effects VSTest.discards, List.append_nil, hnone]
  obtain ⟨hsettled, hunsettled⟩ := VSTest.settle_cases hnothing
  simp only [parse, account, Trace.account, Account.addTo, Table.applyEffects]
  refine ⟨fun hnone => ?_, fun error herror => ?_⟩
  · obtain ⟨hfault, charges, hcharges, hentries⟩ := hsettled (Option.map_eq_none_iff.mp hnone)
    rw [htrace] at hfault
    obtain ⟨rfl, hstate⟩ := hstops.of_no_fault hfault
    have hresults : (VSTest.rules.apply VSTest.State.initial (Reading.ofBytes bytes)).state.pending = results := by
      rw [htrace, ← show _ = results from hpending]
      exact congrArg VSTest.State.pending hstate
    rw [hresults] at hcharges
    rw [hentries, htags, List.append_nil]
    have hrecords : OnePerTag vstest.testTag (vstest.Gives map bytes) [] done (effectEntries map charges) := by
      refine hkeeps.replace (VSTest.resolve_charges hcharges) ?_
      rintro before tag ⟨id, record⟩ entry hkeep ⟨name, hname, rfl⟩
      exact ⟨id, name, hkeep, hname, rfl⟩
    exact gains_of_entries hrecords table
  · obtain ⟨fault, hfault, rfl⟩ := Option.map_eq_some_iff.mp herror
    rw [hunsettled fault hfault]
    exact ⟨rfl, rfl⟩

end Dialect

/-- Parsing follows a document to its last event, be that its end or a fault of its markup. When it
succeeds, the table has gained one record for each test tag of the document, and the number of its tests
has grown by their number. When it fails, a table has gained just that from the tags before the place where
it stops, or is what it was if the dialect settles its results in the end. -/
theorem parse_accounts_for_tests (dialect : Dialect) (path : Path) (bytes : List UInt8) (map : MethodMap)
    (table : Table) :
    ∃ events final, (Parser.ofBytes bytes).Reads events final ∧ final.next.1.isLast = true ∧
      let tags := Markup.Event.tags 0 events
      let parsed := dialect.parse path bytes map table
      (tags.Pairwise fun a b => a.position < b.position) ∧
      (parsed.failure = none → dialect.Gains map bytes tags table parsed.table) ∧
      ∀ error, parsed.failure = some error → error.path = path ∧
        if dialect = .vstest then parsed.table = table
        else ∃ done rest, tags = done ++ rest ∧
          error.fault.StopsAt dialect.roots final.next.1 done rest ∧
          dialect.Gains map bytes done table parsed.table := by
  obtain ⟨events, final, hreads, hlast⟩ := Parser.reads_to_last (Parser.ofBytes bytes)
  have hreading := Reading.of_bytes_eq hreads hlast
  refine ⟨events, final, hreads, hlast, (hreads.positions 0).2, ?_⟩
  cases dialect with
  | xunit => exact Dialect.gains_at_once .xunit (XUnit.tallies map) XUnit.discards hlast hreading rfl path table
  | nunit => exact Dialect.gains_at_once .nunit (NUnit.tallies map) NUnit.discards hlast hreading rfl path table
  | vstest => exact Dialect.gains_in_the_end hreading path table

end TestMeasures
