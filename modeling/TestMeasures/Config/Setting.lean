import TestMeasures.Decimal.Shortest
import TestMeasures.Toml.Document

/-!
# Settings

The value tree that a configuration is decoded from. A key at the top may be an expression that leads
into tables and lists; it is expanded, and tables that meet are merged. Lists and tables know the file
they were read from, unless they came into being by expansion or merging.
-/

namespace TestMeasures

/-- A configuration value. -/
inductive Setting where
  | absent
  | truth (value : Bool)
  | integer (value : Int)
  | number (value : Binary64)
  | text (value : String)
  | list (origin : Option String) (items : List Setting)
  | table (origin : Option String) (entries : List (String × Setting))
deriving Repr, Inhabited

namespace Setting

mutual

/-- The setting of a document's value, read from a file if one is given. -/
def ofValue (origin : Option String) : Toml.Value → Setting
  | .text value => .text value
  | .integer value => .integer value
  | .number value => .number value
  | .truth value => .truth value
  | .moment written => .text written
  | .list items => .list origin (ofValues origin items)
  | .table entries => .table origin (ofEntries origin entries)

/-- The settings of values. -/
def ofValues (origin : Option String) : List Toml.Value → List Setting
  | [] => []
  | value :: rest => ofValue origin value :: ofValues origin rest

/-- The settings of entries. -/
def ofEntries (origin : Option String) : List (String × Toml.Value) → List (String × Setting)
  | [] => []
  | (key, value) :: rest => (key, ofValue origin value) :: ofEntries origin rest

end

/-- The entry of a key. -/
def find? (key : String) (entries : List (String × Setting)) : Option Setting :=
  (entries.find? fun entry => entry.1 == key).map Prod.snd

/-- Puts a setting under a key, at the end if the key is new. -/
def put (key : String) (setting : Setting) : List (String × Setting) → List (String × Setting)
  | [] => [(key, setting)]
  | (k, s) :: rest => if k = key then (k, setting) :: rest else (k, s) :: put key setting rest

/-- The entries of a table; anything else becomes a table without entries. -/
def asTable : Setting → Option String × List (String × Setting)
  | .table origin entries => (origin, entries)
  | _ => (none, [])

/-- The items of a list; anything else becomes a list without items. -/
def asList : Setting → Option String × List Setting
  | .list origin items => (origin, items)
  | _ => (none, [])

mutual

/-- Puts a value where another stands: a table is merged into it, anything else replaces it. -/
def overlay (target : Setting) : Setting → Setting
  | .table _ entries =>
    let base := target.asTable
    .table base.1 (overlayEntries base.2 entries)
  | other => other

/-- Merges entries into entries, one after the other. -/
def overlayEntries (target : List (String × Setting)) :
    List (String × Setting) → List (String × Setting)
  | [] => target
  | (key, value) :: rest =>
    overlayEntries (put key (overlay ((find? key target).getD .absent) value) target) rest

end

end Setting

/-! ## Key expressions -/

/-- One step of a key expression behind its first key. -/
inductive KeyStep where
  | key (name : String)
  | index (place : Int)
deriving Repr, DecidableEq, Inhabited

/-- A key and the steps that lead from its value. -/
structure KeyExpression where
  root : String
  steps : List KeyStep
deriving Repr, DecidableEq, Inhabited

namespace KeyExpression

/-- Whether a character may stand in a key of an expression. -/
def isKeyChar (c : Char) : Bool :=
  c.isAlphanum || c == '_' || c == '-'

/-- Whether a character is a blank inside brackets. -/
def isBlank (c : Char) : Bool :=
  c == ' ' || c == '\t'

/-- The number in brackets: digits behind an optional minus, with blanks around, in sixty-four bits. -/
def index? (chars : List Char) : Option Int :=
  let inner := ((chars.dropWhile isBlank).reverse.dropWhile isBlank).reverse
  let (negative, digits) := match inner with
    | '-' :: digits => (true, digits)
    | digits => (false, digits)
  if digits.isEmpty ∨ ¬digits.all isDigit then none
  else
    let value : Int := if negative then -(digitsValue digits : Int) else digitsValue digits
    if -0x8000000000000000 ≤ value ∧ value < 0x8000000000000000 then some value else none

/-- Reads steps to the end of an expression; each takes a character, so their number bounds them. -/
def steps? : Nat → List Char → Option (List KeyStep)
  | _, [] => some []
  | 0, _ => none
  | fuel + 1, c :: rest =>
    if c = '.' then
      let name := rest.takeWhile isKeyChar
      if name.isEmpty then none
      else (steps? fuel (rest.drop name.length)).map (.key (String.ofList name) :: ·)
    else if c = '[' then
      let inner := rest.takeWhile (· != ']')
      match rest.drop inner.length with
      | [] => none
      | _ :: behind => do
        let place ← index? inner
        let steps ← steps? fuel behind
        some (.index place :: steps)
    else none

/-- Reads a key as an expression. -/
def parse? (key : String) : Option KeyExpression :=
  let chars := key.toList
  let root := chars.takeWhile isKeyChar
  if root.isEmpty then none
  else (steps? chars.length (chars.drop root.length)).map (⟨String.ofList root, ·⟩)

/-- A list that has an item at a place, and the position of that item. A negative place counts from the
end; items that are missing at either end are made. -/
def reach (place : Int) (items : List Setting) : List Setting × Nat :=
  if place ≥ 0 then
    let i := place.toNat
    (items ++ List.replicate (i + 1 - items.length) .absent, i)
  else
    let back := place.natAbs
    if back ≤ items.length then (items, items.length - back)
    else (List.replicate (back - items.length) .absent ++ items, 0)

/-- Puts a value where steps lead to, making tables and lists on the way. -/
def assign (value : Setting) : List KeyStep → Setting → Setting
  | [], target => target.overlay value
  | .key name :: steps, target =>
    let base := target.asTable
    .table base.1
      (Setting.put name (assign value steps ((Setting.find? name base.2).getD .absent)) base.2)
  | .index place :: steps, target =>
    let base := target.asList
    let (items, i) := reach place base.2
    .list base.1 (items.set i (assign value steps (items.getD i .absent)))

end KeyExpression

/-- Adds a value under a key at the top: where the expression leads, or under the key itself when it is
no expression. -/
def Setting.addTop (entries : List (String × Setting)) (key : String) (value : Setting) :
    List (String × Setting) :=
  let expression := (KeyExpression.parse? key).getD ⟨key, []⟩
  let held := (Setting.find? expression.root entries).getD .absent
  Setting.put expression.root (KeyExpression.assign value expression.steps held) entries

/-- The settings of a document, read from a file if one is given. -/
def Setting.ofDocument (origin : Option String) (document : List (String × Toml.Value)) :
    List (String × Setting) :=
  document.foldl (fun entries entry => Setting.addTop entries entry.1 (Setting.ofValue origin entry.2)) []

end TestMeasures
