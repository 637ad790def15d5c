import TestMeasures.Text.Blank

/-!
# Names of test methods

A test is looked up under its assembly's short name and its own name without an argument list.
-/

namespace TestMeasures

/-- What stands behind the last separator of a path; both kinds of slash separate. -/
def lastPart (chars : List Char) : List Char :=
  (chars.reverse.takeWhile fun c => c != '/' && c != '\\').reverse

/-- A file name without what its last point begins, unless the point comes first. -/
def dropExtension (chars : List Char) : List Char :=
  let extension := chars.reverse.takeWhile (· != '.')
  match chars.reverse.drop extension.length with
  | [] => chars
  | _ :: stem => if stem.isEmpty then chars else stem.reverse

/-- The short name of an assembly: the file name of its path, without extension. -/
def assemblyQualifier (path : String) : String :=
  String.ofList (dropExtension (lastPart path.toList))

/-- A test name without its argument list, nor the blanks before that. -/
def dropArguments (chars : List Char) : List Char :=
  let name := chars.takeWhile (· != '(')
  if name.length < chars.length then Text.dropTrailing Text.isBlank name else name

/-- The name that a test is looked up under. -/
def qualifiedName (qualifier : Option String) (test : String) : String :=
  let name := String.ofList (dropArguments test.toList)
  match qualifier with
  | none => name
  | some assembly => if assembly = "" then name else assembly ++ "." ++ name

end TestMeasures
