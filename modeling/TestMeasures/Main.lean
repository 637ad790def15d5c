import TestMeasures.Command.Invocation

/-!
# The program

Reads the arguments, the environment and what lies below the working directory, and shows the answer of
the library.
-/

namespace TestMeasures.Main

/-- The variables that are looked at. -/
def variableNames : List String :=
  ["TESTREPORT_CONFIG", "TESTREPORT_COLOR", "TESTREPORT_LOG", "FORCE_COLOR", "CLICOLOR_FORCE"]

/-- Reads the environment. -/
def readEnvironment : IO Command.Environment := do
  let found ← variableNames.mapM fun name => do return (name, ← IO.getEnv name)
  return .ofVariables fun name => (found.lookup name).join

/-- The path from one folder to a location, both given by their names from the same top. -/
def relativePath (folder location : List String) : Path :=
  ⟨"/".intercalate (folder.map (fun _ => "..") ++ location)⟩

/-- Where a link leads, if that is below the top. -/
def linkNode (top : List String) (folder : List String) (target : List String) : Option Node :=
  if top.isPrefixOf target then some (.link (relativePath folder (target.drop top.length))) else none

/-- What lies below a folder, by the names that lead there. What cannot be looked into is left out. -/
partial def entriesBelow (top folder : List String) (entries : Array IO.FS.DirEntry) :
    IO (List (List String × Node)) := do
  let mut held := []
  for entry in entries do
    let location := folder ++ [entry.fileName]
    let found ← try
        match (← entry.path.symlinkMetadata).type with
        | .dir =>
          let inner ← entriesBelow top location (← entry.path.readDir)
          pure ((location, Node.folder) :: inner)
        | .symlink =>
          let target ← IO.FS.realPath entry.path
          pure ((linkNode top folder target.components).toList.map (location, ·))
        | .file => pure [(location, Node.file (← IO.FS.readBinFile entry.path).toList)]
        | .other => pure []
      catch _ => pure []
    held := held ++ found
  return held

/-- What lies below the working directory. -/
def workingTree : IO FileTree := do
  let top ← IO.FS.realPath (← IO.currentDir)
  return ⟨← entriesBelow top.components [] (← top.readDir)⟩

end TestMeasures.Main

/-- Shows the answer to the arguments. Output that cannot be written fails the run. -/
def main (arguments : List String) : IO UInt32 := do
  let environment ← TestMeasures.Main.readEnvironment
  let tree ← TestMeasures.Main.workingTree
  let answerTo := TestMeasures.Command.invoke tree environment arguments
  let output ← IO.getStdout
  let whole := answerTo .unlimited
  let answer ← try
      output.write ⟨whole.output.toArray⟩
      output.flush
      pure whole
    catch fault => pure (answerTo ⟨some 0, toString fault⟩)
  IO.eprint answer.diagnostics
  return UInt32.ofNat answer.exitCode
