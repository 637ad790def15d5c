import TestMeasures.Path
import TestMeasures.Results.Counts

/-!
# Tables of counts per source file

A table holds one row per key, in key order: source files by path, then the row of the tests that no
file could be found for. Keys are told apart by path components and printed as first inserted. A table
carries the order of its rows, and everything that makes one keeps it.
-/

namespace TestMeasures

/-- What a test result is charged to. -/
inductive ResultKey where
  /-- A source file. -/
  | file (path : Path)
  /-- No file is known: the result counts towards the project only. -/
  | unattributed
deriving Repr, DecidableEq, Inhabited

namespace ResultKey

/-- Files by path, then the unattributed row. -/
def order : ResultKey → ResultKey → Ordering
  | .file a, .file b => a.order b
  | .file _, .unattributed => .lt
  | .unattributed, .file _ => .gt
  | .unattributed, .unattributed => .eq

/-- Turning two keys around turns their order around. -/
theorem order_swap (a b : ResultKey) : a.order b = (b.order a).swap := by
  cases a <;> cases b <;> first | rfl | exact Path.order_swap _ _

instance : Std.OrientedCmp order where
  eq_swap := order_swap _ _

instance : Std.TransCmp order where
  isLE_trans {a b c} hab hbc := by
    -- The unattributed key comes last, so a file key after it closes a case at once.
    cases a with
    | unattributed =>
        cases b with
        | unattributed => exact hbc
        | file path => cases hab
    | file path =>
        cases c with
        | unattributed => rfl
        | file last =>
            cases b with
            | unattributed => cases hbc
            | file middle => exact Path.order_is_le_trans hab hbc

/-- The text of a key. -/
def text : ResultKey → String
  | .file path => path.text
  | .unattributed => "(unattributed)"

/-- The file of a key, if it is one. -/
def file? : ResultKey → Option Path
  | .file path => some path
  | .unattributed => none

end ResultKey

namespace Table

/-- Changes what stands under a key, making its row where it belongs when there is none. -/
def updateRow (key : ResultKey) (change : Option Counts → Counts) :
    List (ResultKey × Counts) → List (ResultKey × Counts)
  | [] => [(key, change none)]
  | (k, held) :: rest =>
    match key.order k with
    | .lt => (key, change none) :: (k, held) :: rest
    | .eq => (k, change (some held)) :: rest
    | .gt => (k, held) :: updateRow key change rest

variable {key : ResultKey} {change : Option Counts → Counts} {rows : List (ResultKey × Counts)}

/-- A row behind a change has the key of the change or of a row that was there. -/
theorem mem_update_row {row : ResultKey × Counts} (h : row ∈ updateRow key change rows) :
    row.1 = key ∨ ∃ old ∈ rows, row.1 = old.1 := by
  induction rows with
  | nil =>
      obtain rfl := List.mem_singleton.mp h
      exact .inl rfl
  | cons head rest ih =>
      unfold updateRow at h
      split at h
      case h_1 =>
        rcases List.mem_cons.mp h with rfl | h
        · exact .inl rfl
        · exact .inr ⟨row, h, rfl⟩
      case h_2 =>
        rcases List.mem_cons.mp h with rfl | h
        · exact .inr ⟨head, List.mem_cons_self, rfl⟩
        · exact .inr ⟨row, List.mem_cons_of_mem head h, rfl⟩
      case h_3 =>
        rcases List.mem_cons.mp h with rfl | h
        · exact .inr ⟨head, List.mem_cons_self, rfl⟩
        · rcases ih h with h | ⟨old, hold, h⟩
          · exact .inl h
          · exact .inr ⟨old, List.mem_cons_of_mem head hold, h⟩

/-- A change keeps rows in strictly increasing key order. -/
theorem update_row_increases (h : rows.Pairwise fun a b => a.1.order b.1 = .lt) :
    (updateRow key change rows).Pairwise fun a b => a.1.order b.1 = .lt := by
  induction rows with
  | nil => exact List.pairwise_singleton _ _
  | cons head rest ih =>
      obtain ⟨hhead, hrest⟩ := List.pairwise_cons.mp h
      unfold updateRow
      -- The key comes before the head, is the head's, or goes on into the rest.
      split
      case h_1 hlt =>
        refine List.pairwise_cons.mpr ⟨fun row hrow => ?_, h⟩
        rcases List.mem_cons.mp hrow with rfl | hrow
        · exact hlt
        · exact Std.TransCmp.lt_trans hlt (hhead row hrow)
      case h_2 => exact List.pairwise_cons.mpr ⟨hhead, hrest⟩
      case h_3 hgt =>
        refine List.pairwise_cons.mpr ⟨fun row hrow => ?_, ih hrest⟩
        rcases mem_update_row hrow with h | ⟨old, hold, h⟩
        · rw [h]
          exact Std.OrientedCmp.lt_of_gt hgt
        · rw [h]
          exact hhead old hold

end Table

/-- Accumulated counts per key, in strictly increasing key order. -/
@[ext]
structure Table where
  rows : List (ResultKey × Counts)
  ordered : rows.Pairwise fun a b => a.1.order b.1 = .lt
deriving Repr, DecidableEq

namespace Table

/-- The table without rows. -/
def empty : Table := ⟨[], .nil⟩

instance : Inhabited Table := ⟨empty⟩

/-- Changes what stands under a key, making its row when there is none. -/
def update (table : Table) (key : ResultKey) (change : Option Counts → Counts) : Table :=
  ⟨updateRow key change table.rows, update_row_increases table.ordered⟩

/-- Adds counts under a key: to those that it has, or as they are. -/
def add (table : Table) (key : ResultKey) (counts : Counts) : Table :=
  table.update key fun held => held.elim counts (· + counts)

/-- Charges one record to a key, which starts with counts of nothing. -/
def addRecord (table : Table) (key : ResultKey) (record : TestRecord) : Table :=
  table.update key fun held => (held.getD .empty).addRecord record

/-- Adds every row of the second table to the first. -/
def merge (table other : Table) : Table :=
  other.rows.foldl (fun sum row => sum.add row.1 row.2) table

/-- The counts under a key, if there are any. -/
def get? (table : Table) (key : ResultKey) : Option Counts :=
  (table.rows.find? fun row => key.order row.1 == .eq).map Prod.snd

/-- The counts of a source file. -/
def file? (table : Table) (path : Path) : Option Counts :=
  table.get? (.file path)

/-- The source files and their counts, in path order. -/
def files (table : Table) : List (Path × Counts) :=
  table.rows.filterMap fun row => row.1.file?.map (·, row.2)

/-- The counts that no source file was found for. -/
def unattributed? (table : Table) : Option Counts :=
  table.get? .unattributed

/-- The sum over every row. -/
def total (table : Table) : Counts :=
  Counts.sum (table.rows.map Prod.snd)

/-- The number of rows. -/
def size (table : Table) : Nat :=
  table.rows.length

/-- Whether the table has no row. -/
def isEmpty (table : Table) : Bool :=
  table.rows.isEmpty

/-- Two tables agree when they have the same rows, up to the spelling of paths. -/
def agrees (a b : Table) : Bool :=
  a.rows.length == b.rows.length &&
    (a.rows.zip b.rows).all fun pair =>
      pair.1.1.order pair.2.1 == .eq && pair.1.2 == pair.2.2

end Table

end TestMeasures
