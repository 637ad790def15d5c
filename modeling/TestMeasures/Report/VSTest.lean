import TestMeasures.Report.Duration
import TestMeasures.Report.Naming
import TestMeasures.Report.Rules

/-!
# Visual Studio test reports

Results refer to test definitions by id and usually stand before them. They are kept until the whole
document has been read; then every id must have a definition, or nothing is charged at all.
-/

namespace TestMeasures.VSTest

/-- What has been read so far. -/
structure State where
  /-- Results by test id, in document order. -/
  pending : List (String × TestRecord)
  /-- Qualified names by test id; the last definition of an id comes first. -/
  definitions : List (String × String)
  /-- The id of a test whose method has not been read. -/
  currentId : Option String
deriving Repr, DecidableEq, Inhabited

namespace State

/-- Nothing has been read. -/
def initial : State := ⟨[], [], none⟩

/-- The qualified name of a test id. -/
def definition? (state : State) (id : String) : Option String :=
  (state.definitions.find? fun entry => entry.1 == id).map Prod.snd

end State

/-- The outcome that an `outcome` stands for. -/
def outcome? : String → Option Outcome
  | "Passed" => some .passed
  | "Failed" => some .failed
  | "Error" => some .error
  | "Timeout" => some .error
  | "Aborted" => some .error
  | "NotExecuted" => some .skipped
  | "Inconclusive" => some .skipped
  | "Pending" => some .skipped
  | "NotRunnable" => some .skipped
  | "Warning" => some .skipped
  | _ => none

/-- The duration of a result. -/
def resultDuration (tag : Tag) : Except TagFault (Option Count) := do
  match ← tag.optional "duration" with
  | none => pure none
  | some text =>
    match readClock? text with
    | some duration => pure (some duration)
    | none => .error (tag.malformed "duration" text "expected hh:mm:ss.fffffff")

/-- Keeps one result. -/
def result : Handler State := .reading fun tag state => do
  let id ← tag.required "testId"
  let word ← tag.required "outcome"
  match outcome? word with
  | none => .error (tag.malformed "outcome" word "not a recognized VSTest outcome")
  | some outcome => do
    let duration ← resultDuration tag
    pure ({ state with pending := state.pending ++ [(id, ⟨outcome, duration⟩)] }, [])

/-- Takes the id of a test. -/
def unitTest : Handler State := .reading fun tag state => do
  let id ← tag.required "id"
  pure ({ state with currentId := some id }, [])

/-- The class of a test and, in older reports, the assembly behind the first comma. -/
def classParts (className : String) : String × Option String :=
  match (Text.split ',' className).map Text.trim with
  | [] => ("", none)
  | [name] => (name, none)
  | name :: assembly :: _ => (name, some assembly)

/-- The qualified name that a method gives to its test. -/
def methodName (tag : Tag) : Except TagFault String := do
  let className ← tag.required "className"
  let method ← tag.required "name"
  let (typeName, assembly) := classParts className
  let codeBase ← tag.optional "codeBase"
  let qualifier := match codeBase with
    | some path => some (assemblyQualifier path)
    | none => assembly
  pure (qualifiedName qualifier (typeName ++ "." ++ method))

/-- Defines the test read last; a method without a test before it says nothing. The test is taken before the
method is read, so that it is gone also when the method is refused. -/
def testMethod : Handler State := fun tag state =>
  match state.currentId with
  | none => .ok (state, [])
  | some id =>
    match methodName tag with
    | .error fault => .error ⟨fault, some ({ state with currentId := none }, [])⟩
    | .ok name =>
      .ok (⟨state.pending, (id, name) :: state.definitions, none⟩,
        [.note .vstest ("VSTest test definition found, id: " ++ id ++ ", qualified name: " ++ name)])

/-- The rules of Visual Studio test reports. -/
def rules : Rules State where
  roots := ["TestRun"]
  handlers := [("UnitTestResult", result), ("UnitTest", unitTest), ("TestMethod", testMethod)]

/-- The charges of results under the names of their definitions, or the first id without one. -/
def resolve (state : State) : List (String × TestRecord) → Except String (List Effect)
  | [] => .ok []
  | (id, record) :: rest =>
    match state.definition? id with
    | none => .error id
    | some name => (resolve state rest).map (Effect.charge name record :: ·)

/-- Charges the results of a document that was read to its end. -/
def settle (trace : Trace State) : Trace State :=
  match trace.fault with
  | some _ => trace
  | none =>
    match resolve trace.state trace.state.pending with
    | .error id => { trace with fault := some (.unknownTest id) }
    | .ok charges => { trace with effects := trace.effects ++ charges }

end TestMeasures.VSTest
