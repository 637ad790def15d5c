/-!
# Log events

An event has a level, a scope that says which part of the program tells it, and a message. The scope's
name is what a log filter is matched against.
-/

namespace TestMeasures

/-- How grave an event is, gravest first. -/
inductive Level where
  | error
  | warn
  | info
  | debug
deriving Repr, DecidableEq, Inhabited

/-- The number of a level: 1 for errors, more for lesser events. -/
def Level.number : Level → Nat
  | .error => 1
  | .warn => 2
  | .info => 3
  | .debug => 4

/-- The part of the program that tells an event. -/
inductive Scope where
  | attribution
  | xunit
  | nunit
  | vstest
  | settings
  | aggregation
  | importing
  | running
  | failures
  | output
  /-- Continuation lines, which carry no heading. -/
  | continuation
deriving Repr, DecidableEq, Inhabited

/-- The dotted name of a scope, as log filters know it. -/
def Scope.name : Scope → String
  | .attribution => "testreport_xml::parser"
  | .xunit => "testreport_xml::dialects::xunit"
  | .nunit => "testreport_xml::dialects::nunit"
  | .vstest => "testreport_xml::dialects::vstest"
  | .settings => "testreport_import::config"
  | .aggregation => "testreport_import::aggregator"
  | .importing => "testreport_import::importer"
  | .running => "testreport::dispatch"
  | .failures => "testreport::errors"
  | .output => "testreport::output"
  | .continuation => "testreport::no_heading"

/-- Something that happened, for the log. -/
structure Event where
  level : Level
  scope : Scope
  message : String
deriving Repr, DecidableEq, Inhabited

end TestMeasures
