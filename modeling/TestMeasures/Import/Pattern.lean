import TestMeasures.FileTree
import TestMeasures.Glob.Match

/-!
# Report path patterns

A pattern without glob characters names one file. Any other is split at the first component that has
one: the components before it lead to a folder, and the rest is a glob that is matched against the paths
of the files below that folder. To find them every folder on the way is opened.
-/

namespace TestMeasures

/-- Why a pattern does not come to files. -/
inductive PatternError where
  /-- The glob of the pattern cannot be read. -/
  | glob (pattern part : String) (fault : Glob.Fault)
  /-- A folder below the one that is searched cannot be opened. -/
  | walk (pattern : String) (folder : Path) (fault : FileTree.WalkFault)
deriving Repr, DecidableEq, Inhabited

/-- The messages of a pattern that does not come to files, outermost first. -/
def PatternError.chain : PatternError → List String
  | .glob pattern part fault =>
    ["invalid report path pattern `" ++ pattern ++ "`",
     "error parsing glob '" ++ part ++ "': " ++ fault.message]
  | .walk pattern folder fault =>
    ["error walking `" ++ folder.text ++ "` for report path pattern `" ++ pattern ++ "`",
     "IO error for operation on " ++ fault.path.text ++ ": " ++ fault.fault.message,
     fault.fault.message]

namespace Pattern

/-- Whether a text has a glob character. -/
def isGlob (text : String) : Bool :=
  text.toList.any fun c => c == '*' || c == '?' || c == '[' || c == '{'

/-- The components of a pattern before its glob, and the texts of those from there on. -/
def splitComponents (components : List String) : List String × List String :=
  (components.takeWhile (!isGlob ·), components.dropWhile (!isGlob ·))

/-- Sorted insertion by path; paths that are the same keep their order. -/
def insertPath (path : Path) : List Path → List Path
  | [] => [path]
  | head :: rest =>
    if path.order head == .gt then head :: insertPath path rest else path :: head :: rest

/-- Paths in component-wise order. -/
def sortPaths (paths : List Path) : List Path :=
  paths.foldr insertPath []

/-- The files below a folder that a glob matches, in path order. -/
def matchesBelow (tree : FileTree) (folder : Path) (glob : List Glob.Token) : List Path :=
  sortPaths <| ((tree.filesBelow folder).filter fun names =>
    Glob.isMatch glob ("/".intercalate names)).map folder.below

/-- The texts of the components of a pattern. -/
def texts (pattern : String) : List String :=
  (Path.mk pattern).components.map Path.Component.text

/-- The folder that a pattern with a glob is searched for below. -/
def searchFolder (base : Path) (pattern : String) : Path :=
  base.below (splitComponents (texts pattern)).1

/-- The part of a pattern that is matched against paths. -/
def globPart (pattern : String) : String :=
  "/".intercalate (splitComponents (texts pattern)).2

/-- The files that a pattern stands for, from a base folder. A pattern with a glob has every folder below the one
that is searched opened, and fails with the first that cannot be. -/
def resolve (tree : FileTree) (base : Path) (pattern : String) : Except PatternError (List Path) :=
  if isGlob pattern then
    match Glob.parse (globPart pattern) with
    | .error fault => .error (.glob pattern (globPart pattern) fault)
    | .ok tokens =>
      if tree.isFolder (searchFolder base pattern) then
        match tree.unopened? (searchFolder base pattern) with
        | some fault => .error (.walk pattern (searchFolder base pattern) fault)
        | none => .ok (matchesBelow tree (searchFolder base pattern) tokens)
      else .ok []
  else
    let path := base.join ⟨pattern⟩
    .ok (if tree.isFile path then [path] else [])

end Pattern

end TestMeasures
