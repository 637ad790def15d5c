import TestMeasures.Report.Duration
import TestMeasures.Report.Naming
import TestMeasures.Report.Rules

/-!
# xUnit.net reports

`assembly` tags give the assembly that the tests after them belong to; every `test` tag is one record.
-/

namespace TestMeasures.XUnit

/-- The assembly read last. -/
abbrev State := Option String

/-- The outcome that a `result` stands for. -/
def outcome? : String → Option Outcome
  | "Pass" => some .passed
  | "Fail" => some .failed
  | "Skip" => some .skipped
  | "NotRun" => some .skipped
  | _ => none

/-- Takes the short name of an assembly. -/
def assembly : Handler State := .reading fun tag _ => do
  let name ← tag.required "name"
  let qualifier := assemblyQualifier name
  pure (some qualifier,
    [.note .xunit ("XUnit assembly found, assembly name: " ++ name ++ ", extracted qualifier: " ++
      qualifier)])

/-- Charges one test. -/
def test : Handler State := .reading fun tag state => do
  let result ← tag.required "result"
  let duration ← tag.seconds "time"
  let name ← tag.required "name"
  match outcome? result with
  | none => .error (tag.malformed "result" result "expected one of: Pass, Fail, Skip, NotRun")
  | some outcome => pure (state, [.charge (qualifiedName state name) ⟨outcome, duration⟩])

/-- The rules of xUnit.net reports. -/
def rules : Rules State where
  roots := ["assembly", "assemblies"]
  handlers := [("assembly", assembly), ("test", test)]

end TestMeasures.XUnit
