import TestMeasures.Report.Dialect

/-!
# Configured reports

The report path patterns of a language, dialect by dialect.
-/

namespace TestMeasures

/-- Report path patterns by dialect. -/
structure Reports where
  xunit : List String := []
  nunit : List String := []
  vstest : List String := []
deriving Repr, DecidableEq, Inhabited

namespace Reports

/-- The patterns of a dialect. -/
def patterns (reports : Reports) : Dialect → List String
  | .xunit => reports.xunit
  | .nunit => reports.nunit
  | .vstest => reports.vstest

/-- Adds a pattern at the end of a dialect's patterns. -/
def add (reports : Reports) (dialect : Dialect) (pattern : String) : Reports :=
  match dialect with
  | .xunit => { reports with xunit := reports.xunit ++ [pattern] }
  | .nunit => { reports with nunit := reports.nunit ++ [pattern] }
  | .vstest => { reports with vstest := reports.vstest ++ [pattern] }

/-- Every pattern with its dialect, in the order of the dialects. -/
def toList (reports : Reports) : List (Dialect × String) :=
  Dialect.all.flatMap fun dialect => (reports.patterns dialect).map (dialect, ·)

/-- Whether no pattern is configured. -/
def isEmpty (reports : Reports) : Bool :=
  reports.xunit.isEmpty && reports.nunit.isEmpty && reports.vstest.isEmpty

end Reports

end TestMeasures
