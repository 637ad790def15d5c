import TestMeasures.Report.NUnit
import TestMeasures.Report.VSTest
import TestMeasures.Report.XUnit

/-!
# Report dialects

The dialect of a report is chosen by whoever names its path; it is never guessed from the contents. What
a document amounts to depends on the dialect and the document alone, and is then added to a table.
-/

namespace TestMeasures

/-- A report format. -/
inductive Dialect where
  | xunit
  | nunit
  | vstest
deriving Repr, DecidableEq, Inhabited

namespace Dialect

/-- Every dialect, in the order in which reports are imported. -/
def all : List Dialect := [.xunit, .nunit, .vstest]

/-- The name of a dialect. -/
def name : Dialect → String
  | .xunit => "XUnit"
  | .nunit => "NUnit"
  | .vstest => "VSTest"

/-- The scope of a dialect's events. -/
def scope : Dialect → Scope
  | .xunit => .xunit
  | .nunit => .nunit
  | .vstest => .vstest

end Dialect

/-- What a report amounts to: what follows from it in order, and the fault that ended it. -/
structure Account where
  effects : List Effect
  fault : Option ReportFault
deriving Repr, DecidableEq, Inhabited

/-- A trace without its last state. -/
def Trace.account {σ : Type} (trace : Trace σ) : Account :=
  ⟨trace.effects, trace.fault⟩

namespace Dialect

/-- What the reading of a document amounts to in a dialect. -/
def account (dialect : Dialect) (reading : Reading) : Account :=
  match dialect with
  | .xunit => (XUnit.rules.apply none reading).account
  | .nunit => (NUnit.rules.apply none reading).account
  | .vstest => (VSTest.settle (VSTest.rules.apply VSTest.State.initial reading)).account

/-- The event that opens the parsing of a report. -/
def opening (dialect : Dialect) (path : Path) : Event :=
  ⟨.info, dialect.scope, "Parsing the " ++ dialect.name ++ " test results file '" ++ path.text ++ "'"⟩

end Dialect

/-- A report that was parsed into a table: the table, the events, and what was wrong. -/
structure Parsed where
  table : Table
  events : List Event
  failure : Option ReportError
deriving Repr, DecidableEq, Inhabited

/-- Adds what a report at a path amounts to. -/
def Account.addTo (account : Account) (path : Path) (map : MethodMap) (table : Table)
    (before : List Event) : Parsed where
  table := table.applyEffects map account.effects
  events := before ++ effectEvents map account.effects
  failure := account.fault.map (⟨path, ·⟩)

/-- Parses the bytes of a report into a table. -/
def Dialect.parse (dialect : Dialect) (path : Path) (bytes : List UInt8) (map : MethodMap)
    (table : Table) : Parsed :=
  (dialect.account (Reading.ofBytes bytes)).addTo path map table [dialect.opening path]

end TestMeasures
