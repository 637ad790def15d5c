import TestMeasures.Import.Pattern
import TestMeasures.Import.Reports

/-!
# Aggregating reports

Every file that the patterns of a dialect lead to is parsed by itself, once per dialect and path, and
added to one table. The first pattern that does not come to files and the first faulty report end the
aggregation.
-/

namespace TestMeasures

/-- Why reports cannot be aggregated. -/
inductive AggregateError where
  | pattern (error : PatternError)
  | report (error : ReportError)
deriving Repr, DecidableEq, Inhabited

/-- The messages of an error, outermost first. -/
def AggregateError.chain : AggregateError → List String
  | .pattern error => error.chain
  | .report error => error.chain

/-- Parses the report at a path into a table. One that cannot be opened is not announced. -/
def Dialect.parseFile (dialect : Dialect) (tree : FileTree) (path : Path) (map : MethodMap)
    (table : Table) : Parsed :=
  match tree.resolve path with
  | .error fault => ⟨table, [], some ⟨path, .unopened fault⟩⟩
  | .ok (_, .file bytes) => dialect.parse path bytes map table
  | .ok _ => ⟨table, [dialect.opening path], some ⟨path, .unread .isFolder⟩⟩

/-- What aggregation works on: a file tree, the folder that patterns start from, and the files of test
methods. -/
structure Workspace where
  tree : FileTree
  base : Path
  map : MethodMap
deriving Repr, DecidableEq, Inhabited

/-- An aggregation under way: the reports parsed so far, their table, and the log. -/
structure Aggregation where
  seen : List (Dialect × Path)
  table : Table
  events : List Event
deriving Repr, DecidableEq, Inhabited

namespace Aggregation

/-- Nothing has been parsed. -/
def initial : Aggregation := ⟨[], .empty, []⟩

/-- Adds events to the log. -/
def tell (state : Aggregation) (events : List Event) : Aggregation :=
  { state with events := state.events ++ events }

/-- Whether a report was parsed before. -/
def hasSeen (state : Aggregation) (dialect : Dialect) (path : Path) : Bool :=
  state.seen.any fun entry => entry.1 == dialect && entry.2.same path

/-- Parses a report into a table of its own and adds that, unless it was parsed before. -/
def addFile (space : Workspace) (dialect : Dialect) (state : Aggregation) (path : Path) :
    Aggregation × Option AggregateError :=
  if state.hasSeen dialect path then
    (state.tell [⟨.debug, .aggregation, dialect.name ++ " test report '" ++ path.text ++
      "' already imported, skipping"⟩], none)
  else
    let parsed := dialect.parseFile space.tree path space.map .empty
    let seen := (dialect, path) :: state.seen
    match parsed.failure with
    | some error => (⟨seen, state.table, state.events ++ parsed.events⟩, some (.report error))
    | none => (⟨seen, state.table.merge parsed.table, state.events ++ parsed.events⟩, none)

/-- Adds reports up to the first faulty one. -/
def addFiles (space : Workspace) (dialect : Dialect) (state : Aggregation) :
    List Path → Aggregation × Option AggregateError
  | [] => (state, none)
  | path :: rest =>
    match addFile space dialect state path with
    | (after, none) => addFiles space dialect after rest
    | failed => failed

/-- Adds the reports of one pattern. -/
def addPattern (space : Workspace) (state : Aggregation) (dialect : Dialect) (pattern : String) :
    Aggregation × Option AggregateError :=
  match Pattern.resolve space.tree space.base pattern with
  | .error error => (state, some (.pattern error))
  | .ok [] =>
    (state.tell [⟨.info, .aggregation, "No " ++ dialect.name ++ " test report found for '" ++ pattern ++
      "'"⟩], none)
  | .ok paths => addFiles space dialect state paths

/-- Adds the reports of patterns up to the first fault. -/
def addPatterns (space : Workspace) (state : Aggregation) :
    List (Dialect × String) → Aggregation × Option AggregateError
  | [] => (state, none)
  | (dialect, pattern) :: rest =>
    match addPattern space state dialect pattern with
    | (after, none) => addPatterns space after rest
    | failed => failed

end Aggregation

/-- The table of all configured reports or the first fault, and the log. -/
def aggregate (space : Workspace) (reports : Reports) : Except AggregateError Table × List Event :=
  match Aggregation.addPatterns space .initial reports.toList with
  | (state, none) => (.ok state.table, state.events)
  | (state, some error) => (.error error, state.events)

end TestMeasures
