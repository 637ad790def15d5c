import TestMeasures.Config.Language
import TestMeasures.Import.Aggregate
import TestMeasures.Measure.Store
import TestMeasures.Warnings

/-!
# Importing the reports of a language

The counts of every file and then of the project are published, metric by metric, into a store that is
shared with other imports. What cannot be imported leaves a warning; what was published before stays.
-/

namespace TestMeasures

/-- How the import of a language ended. -/
inductive ImportOutcome where
  /-- No report is configured. -/
  | skipped
  /-- The results of so many files were published. -/
  | imported (files : Nat)
  | failed
deriving Repr, DecidableEq, Inhabited

/-- Why results cannot be imported. -/
inductive ImportError where
  | aggregate (error : AggregateError)
  | publish (error : DuplicateMeasure)
deriving Repr, DecidableEq, Inhabited

/-- The messages of an error, outermost first. -/
def ImportError.chain : ImportError → List String
  | .aggregate error => error.chain
  | .publish error => [error.message]

/-- What an import asks for results: whether there are any to import, and if so their table. -/
structure Source where
  applicable : Bool
  answer : Except AggregateError Table
  events : List Event

/-- The configured reports of a language as a source of results. -/
def Source.ofReports (space : Workspace) (reports : Reports) : Source :=
  let result := aggregate space reports
  ⟨!reports.isEmpty, result.1, result.2⟩

/-- The measures of one component, in the order of publication. -/
def componentMeasures (component : Component) (counts : Counts) : List Measure :=
  Metric.all.filterMap fun metric =>
    (metric.value? counts).map fun value => ⟨component, metric, value⟩

/-- Everything that is published about a table: its files in path order, then the project. -/
def publication (project : String) (table : Table) : List Measure :=
  table.files.flatMap (fun row => componentMeasures (.file row.1) row.2) ++
    componentMeasures (.project project) table.total

/-- What imports share: the store of measures and the warnings. -/
structure Session where
  store : Store
  warnings : Warnings
deriving Repr, DecidableEq, Inhabited

/-- The session before the first import. -/
def Session.initial : Session := ⟨.empty, .empty⟩

/-- An import that has ended. -/
structure Imported where
  outcome : ImportOutcome
  session : Session
  events : List Event
deriving Repr, DecidableEq, Inhabited

namespace Language

/-- The warning that a language's reports could not be imported. -/
def warning (language : Language) : String :=
  "Could not import unit test report for '" ++ language.name ++
    "'. Please check the logs for more details."

/-- The end of a failed import. -/
def fail (language : Language) (session : Session) (error : ImportError) (events : List Event) :
    Imported where
  outcome := .failed
  session := { session with warnings := session.warnings.add language.warning }
  events := events ++ [⟨.warn, .importing,
    "Could not import unit test report: '" ++ chainText error.chain ++ "'"⟩]

/-- Imports the results of a source for a language. -/
def importFrom (language : Language) (source : Source) (project : String) (session : Session) :
    Imported :=
  if source.applicable then
    match source.answer with
    | .error error => language.fail session (.aggregate error) source.events
    | .ok table =>
      match session.store.saveAll (publication project table) with
      | (store, some refused) =>
        language.fail { session with store := store } (.publish refused) source.events
      | (store, none) =>
        let files := table.files.length
        ⟨.imported files, { session with store := store },
          source.events ++ [⟨.info, .importing, "Imported unit test results for " ++ language.name ++
            " (" ++ toString files ++ " file(s))"⟩]⟩
  else
    ⟨.skipped, session, [⟨.debug, .importing, "No unit test results property. Skip import"⟩]⟩

end Language

end TestMeasures
