import TestMeasures.Results.Count

/-!
# Test records and their accumulated counts

A record is one observation of a test. Counts add up field by field; a total has an execution time as
soon as one of its parts has one, and parts without a time then count as zero.
-/

namespace TestMeasures

/-- How a test ended, whatever words a report uses for it. -/
inductive Outcome where
  /-- The test passed. -/
  | passed
  /-- An assertion of the test failed. -/
  | failed
  /-- The test could not complete. -/
  | error
  /-- The test was not run. -/
  | skipped
deriving Repr, DecidableEq, Inhabited

/-- One observation of a test: its outcome and, if reported, its time in milliseconds. -/
structure TestRecord where
  outcome : Outcome
  duration : Option Count
deriving Repr, DecidableEq, Inhabited

/-- Accumulated test counts, with the total time in milliseconds if any part carried one. -/
structure Counts where
  tests : Count := 0
  skipped : Count := 0
  failures : Count := 0
  errors : Count := 0
  time : Option Count := none
deriving Repr, DecidableEq, Inhabited

namespace Counts

/-- Counts of nothing. -/
def empty : Counts := {}

/-- Whether no test was counted. -/
def isEmpty (counts : Counts) : Bool :=
  counts.tests == 0

/-- Adds optional times: a missing one is zero next to a present one. -/
def addTime : Option Count → Option Count → Option Count
  | none, none => none
  | a, b => some (a.getD 0 + b.getD 0)

/-- Field-wise sum. -/
protected def add (a b : Counts) : Counts where
  tests := a.tests + b.tests
  skipped := a.skipped + b.skipped
  failures := a.failures + b.failures
  errors := a.errors + b.errors
  time := addTime a.time b.time

instance : Add Counts := ⟨Counts.add⟩

/-- The counts of a single record. -/
def ofRecord (record : TestRecord) : Counts where
  tests := 1
  skipped := if record.outcome = .skipped then 1 else 0
  failures := if record.outcome = .failed then 1 else 0
  errors := if record.outcome = .error then 1 else 0
  time := record.duration

/-- Counts one more record. -/
def addRecord (counts : Counts) (record : TestRecord) : Counts :=
  counts + ofRecord record

/-- The sum of a list of counts. -/
def sum (items : List Counts) : Counts :=
  items.foldl (· + ·) empty

end Counts

end TestMeasures
