import TestMeasures.FileFault
import TestMeasures.Path

/-!
# File trees

A file tree is a finite map from locations below the working directory to files, empty folders and
symbolic links; folders on the way to them need no entry. What lies outside of the working directory is
taken to be folders without known contents.
-/

namespace TestMeasures

/-- What stands at a location. -/
inductive Node where
  | file (bytes : List UInt8)
  | folder
  | link (target : Path)
deriving Repr, DecidableEq, Inhabited

/-- A place that a path can lead to: the names from the working directory, or somewhere outside. -/
inductive Place where
  | inside (names : List String)
  | outside
deriving Repr, DecidableEq, Inhabited

/-- The files, empty folders and links below the working directory, by location. -/
structure FileTree where
  entries : List (List String × Node)
deriving Repr, DecidableEq, Inhabited

namespace FileTree

/-- What stands at a location, if anything does. -/
def node? (tree : FileTree) (names : List String) : Option Node :=
  match tree.entries.find? fun entry => entry.1 == names with
  | some entry => some entry.2
  | none =>
    if names.isEmpty || tree.entries.any (fun entry => names.isPrefixOf entry.1) then some .folder
    else none

/-- Follows the pieces of a path from a place. Every piece but the last must lead to a folder, and so
must the place that a `.`, a `..` or an empty piece stands for. Links are handed to `follow` together
with the pieces behind them. -/
def walk (tree : FileTree) (follow : Place → List String → Except FileFault (Place × Node)) :
    Place → List String → Except FileFault (Place × Node)
  | place, [] => .ok (place, .folder)
  | place, piece :: rest =>
    if piece = "" ∨ piece = "." then tree.walk follow place rest
    else if piece = ".." then
      match place with
      | .inside [] => tree.walk follow .outside rest
      | .inside names => tree.walk follow (.inside names.dropLast) rest
      | .outside => tree.walk follow .outside rest
    else
      match place with
      | .outside => .error .absent
      | .inside names =>
        if piece.utf8ByteSize > 255 then .error .nameTooLong
        else
          match tree.node? (names ++ [piece]) with
          | none => .error .absent
          | some .folder => tree.walk follow (.inside (names ++ [piece])) rest
          | some (.file bytes) =>
            if rest.isEmpty then .ok (.inside (names ++ [piece]), .file bytes)
            else .error .notFolder
          | some (.link target) =>
            if target.isAbsolute then follow .outside (target.pieces ++ rest)
            else follow place (target.pieces ++ rest)

/-- Follows the pieces of a path, and at most so many links. -/
def resolveFrom (tree : FileTree) : Nat → Place → List String → Except FileFault (Place × Node)
  | 0 => tree.walk fun _ _ => .error .tooManyLinks
  | links + 1 => tree.walk (tree.resolveFrom links)

/-- The number of links that may be followed on the way to one file. -/
def linkLimit : Nat := 40

/-- The largest number of bytes of a path that is looked up. -/
def pathLimit : Nat := 4095

/-- Where a path leads, and what stands there: a file or a folder. -/
def resolve (tree : FileTree) (path : Path) : Except FileFault (Place × Node) :=
  if '\x00' ∈ path.text.toList then .error .nulInName
  else if path.text = "" then .error .absent
  else if path.text.utf8ByteSize > pathLimit then .error .nameTooLong
  else
    tree.resolveFrom linkLimit (if path.isAbsolute then .outside else .inside []) path.pieces

/-- Whether a path leads to a file. -/
def isFile (tree : FileTree) (path : Path) : Bool :=
  match tree.resolve path with
  | .ok (_, .file _) => true
  | _ => false

/-- Whether a path leads to a folder. -/
def isFolder (tree : FileTree) (path : Path) : Bool :=
  match tree.resolve path with
  | .ok (_, .folder) => true
  | _ => false

/-- The bytes of the file that a path leads to. -/
def read (tree : FileTree) (path : Path) : Except FileFault (List UInt8) :=
  match tree.resolve path with
  | .error fault => .error fault
  | .ok (_, .file bytes) => .ok bytes
  | .ok _ => .error .isFolder

/-- The names that lead from one location to a deeper one. -/
def below? (top names : List String) : Option (List String) :=
  if top.isPrefixOf names ∧ top.length < names.length then some (names.drop top.length) else none

/-- The regular files below the folder that a path leads to, as the names that lead to them from there.
Links are not followed on the way. -/
def filesBelow (tree : FileTree) (path : Path) : List (List String) :=
  match tree.resolve path with
  | .ok (.inside top, .folder) =>
    tree.entries.filterMap fun entry =>
      match entry.2 with
      | .file _ => below? top entry.1
      | _ => none
  | _ => []

/-- The folders below the folder that a path leads to, as the names that lead to them from there: whatever
stands on the way to an entry, from the top down, and entries that are folders themselves. -/
def foldersBelow (tree : FileTree) (path : Path) : List (List String) :=
  match tree.resolve path with
  | .ok (.inside top, .folder) =>
    tree.entries.flatMap fun entry =>
      match below? top entry.1 with
      | none => []
      | some names =>
        let depth := if entry.2 = .folder then names.length else names.length - 1
        (List.range depth).map fun above => names.take (above + 1)
  | _ => []

/-- A folder that cannot be opened. -/
structure WalkFault where
  path : Path
  fault : FileFault
deriving Repr, DecidableEq, Inhabited

/-- The first folder below the one that a path leads to that cannot be opened. Each is opened under the path
that its names make up from there; since it is a folder, only the length of that path can be wrong. -/
def unopened? (tree : FileTree) (path : Path) : Option WalkFault :=
  (((tree.foldersBelow path).map path.below).find? fun folder =>
    folder.text.utf8ByteSize > pathLimit).map (⟨·, .nameTooLong⟩)

end FileTree

end TestMeasures
