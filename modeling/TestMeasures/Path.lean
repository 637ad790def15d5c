/-!
# Paths

A path is its text; two texts name the same path when their components agree, so `a//b`, `a/./b` and
`a/b/` are one path and `./a` differs from `a`. Paths are ordered component by component: the root
before `.`, `.` before `..`, and these before ordinary names, which are ordered by their characters.
-/

namespace TestMeasures

/-- A slash-separated path, kept exactly as it was written. -/
structure Path where
  text : String
deriving Repr, DecidableEq, Inhabited

namespace Path

/-- One step of a path. A leading `.` is kept; any later one says nothing and is dropped. -/
inductive Component where
  | root
  | current
  | parent
  | name (text : String)
deriving Repr, DecidableEq, Inhabited

/-- The text of one component. -/
def Component.text : Component → String
  | .root => "/"
  | .current => "."
  | .parent => ".."
  | .name text => text

/-- The pieces of a text between slashes; there is always at least one. -/
def splitPieces : List Char → List (List Char)
  | [] => [[]]
  | c :: rest =>
    if c = '/' then [] :: splitPieces rest
    else
      match splitPieces rest with
      | [] => [[c]]
      | piece :: more => (c :: piece) :: more

/-- The pieces between the slashes of a path, empty ones included. -/
def pieces (path : Path) : List String :=
  (splitPieces path.text.toList).map String.ofList

/-- An absolute path starts with a slash. -/
def isAbsolute (path : Path) : Bool :=
  path.text.toList.head? == some '/'

/-- The component that a piece other than the first stands for, if it stands for one. -/
def Component.ofPiece? (piece : String) : Option Component :=
  if piece = "" ∨ piece = "." then none
  else if piece = ".." then some .parent
  else some (.name piece)

/-- The components of a path in order. -/
def components (path : Path) : List Component :=
  match path.pieces with
  | [] => []
  | first :: rest =>
    let head :=
      if path.isAbsolute then some Component.root
      else if first = "." then some .current
      else Component.ofPiece? first
    head.toList ++ rest.filterMap Component.ofPiece?

/-- The rank of a component and, for a name, its characters: lists of numbers in lexicographic
order are in the order of the components. -/
def Component.rank : Component → List Nat
  | .root => [0]
  | .current => [1]
  | .parent => [2]
  | .name text => 3 :: text.toList.map Char.toNat

/-- The key by which paths are ordered and told apart. -/
def sortKey (path : Path) : List (List Nat) :=
  path.components.map Component.rank

/-- Component-wise order of paths. -/
def order (a b : Path) : Ordering :=
  compare a.sortKey b.sortKey

/-- Turning two paths around turns their order around. -/
theorem order_swap (a b : Path) : a.order b = (b.order a).swap :=
  Std.OrientedOrd.eq_swap

/-- What is no later than a path is no later than whatever that path is no later than. -/
theorem order_is_le_trans {a b c : Path} (hab : (a.order b).isLE) (hbc : (b.order c).isLE) :
    (a.order c).isLE :=
  Std.TransOrd.isLE_trans hab hbc

instance : Std.OrientedCmp order where
  eq_swap := order_swap _ _

instance : Std.TransCmp order where
  isLE_trans := order_is_le_trans

/-- Two paths are the same path when their components agree. -/
def same (a b : Path) : Bool :=
  a.components == b.components

/-- Appends a relative path below a directory; an absolute one replaces it. -/
def join (base addition : Path) : Path :=
  if addition.isAbsolute then addition
  else if base.text = "" ∨ base.text.toList.getLast? = some '/' then ⟨base.text ++ addition.text⟩
  else ⟨base.text ++ "/" ++ addition.text⟩

/-- The path that names lead to from a folder, one below the other. -/
def below (folder : Path) (names : List String) : Path :=
  names.foldl (fun path name => path.join ⟨name⟩) folder

/-- A piece that adds no component. -/
def silent (piece : String) : Bool :=
  piece == "" || piece == "."

/-- The path without its last component: trailing pieces that say nothing go too. The root and the
empty path have no parent. -/
def parent? (path : Path) : Option Path :=
  if path.isAbsolute then
    match (path.pieces.drop 1).reverse.dropWhile silent with
    | [] => none
    | _ :: before =>
      some ⟨"/" ++ "/".intercalate (before.dropWhile silent).reverse⟩
  else
    match path.pieces with
    | [] => none
    | first :: rest =>
      match rest.reverse.dropWhile silent with
      | _ :: before => some ⟨"/".intercalate (first :: (before.dropWhile silent).reverse)⟩
      | [] => if first = "" then none else some ⟨""⟩

end Path

end TestMeasures
