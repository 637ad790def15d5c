import TestMeasures.Import.Importer
import TestMeasures.Json.Document
import TestMeasures.Text.Style

/-!
# The summary of a run

How the import of every language ended, what was published, component by component, and what the reader
is warned of; as text for people or as a JSON document.
-/

namespace TestMeasures

/-- What a run has to show. -/
structure Summary where
  project : String
  languages : List (Language × ImportOutcome)
  session : Session
deriving Repr, DecidableEq, Inhabited

/-- The word for how an import ended. -/
def ImportOutcome.word : ImportOutcome → String
  | .skipped => "skipped"
  | .imported _ => "imported"
  | .failed => "failed"

/-- The look of the word for how an import ended. -/
def ImportOutcome.style : ImportOutcome → Text.Style
  | .skipped => { color := some .yellow }
  | .imported _ => { color := some .green, bold := true }
  | .failed => { color := some .red, bold := true }

namespace Summary

/-- The look of what a reader looks for. -/
def emphasis : Text.Style := { bold := true }

/-- The look of a warning's heading. -/
def caution : Text.Style := { color := some .yellow }

/-- Blanks before a text that make it so many characters wide. -/
def padStart (width : Nat) (text : String) : String :=
  String.ofList (List.replicate (width - text.length) ' ') ++ text

/-- Blanks behind a text that make it so many characters wide. -/
def padEnd (width : Nat) (text : String) : String :=
  text ++ String.ofList (List.replicate (width - text.length) ' ')

/-- The number of files of an import, with their noun. -/
def filesText (files : Nat) : String :=
  toString files ++ (if files = 1 then " file" else " files")

/-- The line of a language. -/
def languageLine (colored : Bool) (language : Language) (outcome : ImportOutcome) : String :=
  emphasis.paint colored (padStart 10 language.name) ++ " " ++
    outcome.style.paint colored outcome.word ++
    (match outcome with
      | .imported files => " (" ++ filesText files ++ ")"
      | _ => "") ++ "\n"

/-- The heading of a component. -/
def heading (colored : Bool) (component : Component) : String :=
  "\n" ++ emphasis.paint colored component.text ++ ":\n"

/-- The line of a measure. -/
def measureLine (measure : Measure) : String :=
  "    " ++ padEnd 22 (measure.metric.key ++ ":") ++ toString measure.value.val ++ "\n"

/-- The lines of measures. A component has its heading where it differs from the one before. -/
def measureLines (colored : Bool) (before : Option Component) : List Measure → List String
  | [] => []
  | measure :: rest =>
    (if before.any (·.same measure.component) then []
      else [heading colored measure.component]) ++
      measureLine measure :: measureLines colored (some measure.component) rest

/-- The line of a warning. -/
def warningLine (colored : Bool) (warning : String) : String :=
  caution.paint colored "warning" ++ ": " ++ warning ++ "\n"

/-- The lines of the summary for people, in the order in which they are written. -/
def lines (summary : Summary) (colored : Bool) : List String :=
  summary.languages.map (fun entry => languageLine colored entry.1 entry.2) ++
    measureLines colored none summary.session.store.measures ++
    (if summary.session.warnings.isEmpty then []
      else "\n" :: summary.session.warnings.texts.map (warningLine colored))

/-- The summary for people. -/
def text (summary : Summary) (colored : Bool) : String :=
  "".intercalate (summary.lines colored)

/-- How the import of a language ended, as a record. -/
def languageRecord (language : Language) (outcome : ImportOutcome) : Json.Document :=
  let files := match outcome with
    | .imported files => [("files", .number files)]
    | _ => []
  .record (files ++ [("key", .text language.key), ("name", .text language.name),
    ("outcome", .text outcome.word)])

/-- A measure as a record. -/
def measureRecord (measure : Measure) : Json.Document :=
  let (scope, component) := match measure.component with
    | .project key => ("project", key)
    | .file path => ("file", path.text)
  .record [("component", .text component), ("metric", .text measure.metric.key),
    ("scope", .text scope), ("value", .number measure.value.val)]

/-- The summary as a JSON document, with the fields of every record in alphabetical order. -/
def document (summary : Summary) : Json.Document :=
  .record
    [("languages", .list (summary.languages.map fun entry => languageRecord entry.1 entry.2)),
      ("measures", .list (summary.session.store.measures.map measureRecord)),
      ("project-key", .text summary.project),
      ("warnings", .list (summary.session.warnings.texts.map .text))]

end Summary

end TestMeasures
