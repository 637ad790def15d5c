import TestMeasures.FileTree
import TestMeasures.Json.TextMap
import TestMeasures.Results.MethodMap

/-!
# Method map files

A method map is a JSON object from qualified method names to the paths of source files.
-/

namespace TestMeasures

/-- Why the contents of a method map cannot be had or used. -/
inductive MethodMapFault where
  | unread (fault : FileFault)
  | notUtf8
  | notMap (message : String)
deriving Repr, DecidableEq, Inhabited

/-- A method map that cannot be loaded. -/
structure MethodMapError where
  path : Path
  fault : MethodMapFault
deriving Repr, DecidableEq, Inhabited

namespace MethodMapError

/-- The messages of an error, outermost first. -/
def chain (error : MethodMapError) : List String :=
  let path := "`" ++ error.path.text ++ "`"
  match error.fault with
  | .unread fault => ["failed to read method map at " ++ path, fault.message]
  | .notUtf8 => ["failed to read method map at " ++ path, "stream did not contain valid UTF-8"]
  | .notMap message => ["failed to parse method map at " ++ path, message]

end MethodMapError

/-- What a method map's values are called in messages. -/
def methodMapValue : String := "a UTF-8 path string"

/-- The method map in the contents of a file. -/
def MethodMap.ofBytes (bytes : List UInt8) : Except MethodMapFault MethodMap :=
  match Text.Utf8.decode bytes with
  | .error _ => .error .notUtf8
  | .ok _ =>
    match Json.readTextMap methodMapValue bytes with
    | .error error => .error (.notMap (error.message bytes))
    | .ok entries => .ok (.ofList (entries.map fun entry => (entry.1, ⟨entry.2⟩)))

/-- Loads the method map at a path. -/
def MethodMap.load (tree : FileTree) (path : Path) : Except MethodMapError MethodMap :=
  match tree.read path with
  | .error fault => .error ⟨path, .unread fault⟩
  | .ok bytes => (MethodMap.ofBytes bytes).mapError (⟨path, ·⟩)

end TestMeasures
