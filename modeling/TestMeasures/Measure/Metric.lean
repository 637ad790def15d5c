import TestMeasures.Results.Counts

/-!
# Metrics

The figures that are published about a component: four counts, and the execution time where the counts
carry one.
-/

namespace TestMeasures

/-- A published figure. -/
inductive Metric where
  | tests
  | skippedTests
  | testFailures
  | testErrors
  | testExecutionTime
deriving Repr, DecidableEq, Inhabited

namespace Metric

/-- Every metric, in the order of publication. -/
def all : List Metric :=
  [.tests, .skippedTests, .testFailures, .testErrors, .testExecutionTime]

/-- The name a metric is published under. -/
def key : Metric → String
  | .tests => "tests"
  | .skippedTests => "skipped_tests"
  | .testFailures => "test_failures"
  | .testErrors => "test_errors"
  | .testExecutionTime => "test_execution_time"

/-- What a metric says about counts; only the execution time may be absent. -/
def value? (metric : Metric) (counts : Counts) : Option Count :=
  match metric with
  | .tests => some counts.tests
  | .skippedTests => some counts.skipped
  | .testFailures => some counts.failures
  | .testErrors => some counts.errors
  | .testExecutionTime => counts.time

end Metric

end TestMeasures
