import TestMeasures.Report.Duration
import TestMeasures.Report.Naming
import TestMeasures.Report.Rules

/-!
# NUnit reports

Both generations of the format: the newer one gives a test's qualified name as `fullname` and its time
as `duration`, the older one gives `name` and `time`.
-/

namespace TestMeasures.NUnit

/-- The assembly read last. -/
abbrev State := Option String

/-- The outcome that a `result` with its `label` stands for. -/
def outcome? (result : String) (label : Option String) : Option Outcome :=
  if result = "Failed" ∨ result = "Failure" then
    if label = some "Error" ∨ label = some "Invalid" then some .error else some .failed
  else if result = "Passed" ∨ result = "Success" then some .passed
  else if result = "Error" ∨ result = "NotRunnable" ∨ result = "Cancelled" then some .error
  else if result = "Skipped" ∨ result = "Ignored" ∨ result = "Inconclusive" ∨ result = "Warning" then
    some .skipped
  else none

/-- Takes the short name of an assembly; other suites say nothing. -/
def suite : Handler State := .reading fun tag state => do
  let kind ← tag.optional "type"
  if kind = some "Assembly" then do
    let name ← tag.required "name"
    let qualifier := assemblyQualifier name
    pure (some qualifier,
      [.note .nunit ("NUnit assembly found, assembly name: " ++ name ++ ", extracted qualifier: " ++
        qualifier)])
  else pure (state, [])

/-- The name of a test case. -/
def caseName (tag : Tag) : Except TagFault String := do
  match ← tag.optional "fullname" with
  | some name => pure name
  | none => tag.required "name"

/-- The duration of a test case. -/
def caseDuration (tag : Tag) : Except TagFault (Option Count) := do
  match ← tag.seconds "duration" with
  | some duration => pure (some duration)
  | none => tag.seconds "time"

/-- Charges one test case. One that was not executed is skipped, whatever its result says. -/
def case : Handler State := .reading fun tag state => do
  let name ← caseName tag
  let result ← tag.required "result"
  let label ← tag.optional "label"
  let executed ← tag.flag "executed"
  let duration ← caseDuration tag
  let outcome := if executed = some false then some .skipped else outcome? result label
  match outcome with
  | none => .error (tag.malformed "result" result "not a recognized NUnit test result")
  | some outcome => pure (state, [.charge (qualifiedName state name) ⟨outcome, duration⟩])

/-- The rules of NUnit reports. -/
def rules : Rules State where
  roots := ["test-results", "test-run"]
  handlers := [("test-suite", suite), ("test-case", case)]

end TestMeasures.NUnit
