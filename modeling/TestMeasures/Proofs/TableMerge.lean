import Mathlib.Data.List.Induction
import TestMeasures.Proofs.TableView
import TestMeasures.Report.Dialect

/-!
# Adding to a table and merging into it

Adding records one by one is the same as collecting them in a table of their own and merging that
(`Table.add_entries_eq_merge`), whatever the first table holds, and the order of the records decides
nothing but the spelling of paths (`Table.add_entries_agrees`). Hence `parse_merges_alone`: parsing
a report into a table is parsing it into an empty one and merging the two.
-/

namespace TestMeasures

namespace Table

/-- Adds counts under a key of rows. -/
def addRow (key : ResultKey) (counts : Counts) :
    List (ResultKey × Counts) → List (ResultKey × Counts) :=
  updateRow key fun held => held.elim counts (· + counts)

variable {key other : ResultKey} {counts more : Counts} {row : ResultKey × Counts}

/-- Counts that are added to no rows make a row. -/
@[simp]
theorem add_row_nil : addRow key counts [] = [(key, counts)] := rfl

/-- Counts under an earlier key make a row in front. -/
@[simp]
theorem add_row_of_lt (h : key.order row.1 = .lt) (rows : List (ResultKey × Counts)) :
    addRow key counts (row :: rows) = (key, counts) :: row :: rows := by
  simp [addRow, updateRow, h]

/-- Counts under the key of a row join that row. -/
@[simp]
theorem add_row_of_eq (h : key.order row.1 = .eq) (rows : List (ResultKey × Counts)) :
    addRow key counts (row :: rows) = (row.1, row.2 + counts) :: rows := by
  simp [addRow, updateRow, h]

/-- Counts under a later key go behind a row. -/
@[simp]
theorem add_row_of_gt (h : key.order row.1 = .gt) (rows : List (ResultKey × Counts)) :
    addRow key counts (row :: rows) = row :: addRow key counts rows := by
  simp [addRow, updateRow, h]

/-- Counts that are added twice under one key can be added together. -/
theorem add_row_same (h : key.order other = .eq) (rows : List (ResultKey × Counts)) :
    addRow key more (addRow other counts rows) = addRow other (counts + more) rows := by
  induction rows with
  | nil => simp [h]
  | cons row rest ih =>
      have hcongr : key.order row.1 = other.order row.1 := Std.TransCmp.congr_left h
      cases hrow : other.order row.1 with
      | lt => simp [hrow, h]
      | eq => simp [hrow, hcongr, Counts.add_assoc]
      | gt => simp [hrow, hcongr, ih]

/-- Counts can be added under two different keys in either order. -/
theorem add_row_comm (h : key.order other = .lt) (rows : List (ResultKey × Counts)) :
    addRow other more (addRow key counts rows) = addRow key counts (addRow other more rows) := by
  have hswap : other.order key = .gt := Std.OrientedCmp.gt_of_lt h
  induction rows with
  | nil => simp [h, hswap]
  | cons row rest ih =>
      cases hrow : key.order row.1 with
      | lt => cases hother : other.order row.1 <;> simp [hrow, hother, h, hswap]
      | eq =>
          -- The row has the first key, so the second one lies behind it.
          have hother : other.order row.1 = .gt := (Std.TransCmp.congr_right hrow).symm.trans hswap
          simp [hrow, hother]
      | gt =>
          have hother : other.order row.1 = .gt := Std.TransCmp.gt_trans hswap hrow
          simp [hrow, hother, ih]

/-- Counts that are added twice under one key of a table can be added together. -/
theorem add_add_same (h : key.order other = .eq) (table : Table) :
    (table.add other counts).add key more = table.add other (counts + more) :=
  Table.ext (add_row_same h table.rows)

/-- Counts can be added under two different keys of a table in either order. -/
theorem add_add_comm (h : key.order other ≠ .eq) (table : Table) :
    (table.add key counts).add other more = (table.add other more).add key counts := by
  cases horder : key.order other with
  | lt => exact Table.ext (add_row_comm horder table.rows)
  | eq => exact absurd horder h
  | gt => exact Table.ext (add_row_comm (Std.OrientedCmp.lt_of_gt horder) table.rows).symm

/-- Counts can be added before rows of other keys just as well as behind them. -/
theorem foldl_add_comm {rows : List (ResultKey × Counts)} (h : ∀ row ∈ rows, key.order row.1 ≠ .eq)
    (table : Table) :
    rows.foldl (fun sum row => sum.add row.1 row.2) (table.add key counts) =
      (rows.foldl (fun sum row => sum.add row.1 row.2) table).add key counts := by
  induction rows generalizing table with
  | nil => rfl
  | cons row rest ih =>
      rw [List.foldl_cons, List.foldl_cons, add_add_comm (h row (by simp))]
      exact ih (fun other hother => h other (by simp [hother])) _

/-- Adding up rows to which counts were added is adding up the rows and then the counts. -/
theorem foldl_add_row {rows : List (ResultKey × Counts)}
    (h : rows.Pairwise fun a b => a.1.order b.1 = .lt) (key : ResultKey) (counts : Counts)
    (table : Table) :
    (addRow key counts rows).foldl (fun sum row => sum.add row.1 row.2) table =
      (rows.foldl (fun sum row => sum.add row.1 row.2) table).add key counts := by
  induction rows generalizing table with
  | nil => rfl
  | cons row rest ih =>
      obtain ⟨hrow, hrest⟩ := List.pairwise_cons.mp h
      cases horder : key.order row.1 with
      | lt =>
          rw [add_row_of_lt horder]
          refine foldl_add_comm (fun later hlater => ?_) table
          rcases List.mem_cons.mp hlater with rfl | hlater
          · simp [horder]
          · simp [Std.TransCmp.lt_trans horder (hrow later hlater)]
      | eq =>
          -- The counts join the row of their key, and the rows behind it have other keys.
          rw [add_row_of_eq horder, List.foldl_cons, List.foldl_cons, ← add_add_same horder]
          refine foldl_add_comm (fun later hlater => ?_) _
          simp [Std.TransCmp.congr_left horder, hrow later hlater]
      | gt =>
          rw [add_row_of_gt horder]
          exact ih hrest _

/-- Merging a table to which counts were added is merging the table and adding the counts. -/
theorem merge_add (table second : Table) (key : ResultKey) (counts : Counts) :
    table.merge (second.add key counts) = (table.merge second).add key counts :=
  foldl_add_row second.ordered key counts table

/-- Charging records starts with adding the counts of the first. -/
theorem add_entries_cons (table : Table) (entry : ResultKey × TestRecord)
    (entries : List (ResultKey × TestRecord)) :
    table.addEntries (entry :: entries) =
      (table.add entry.1 (Counts.ofRecord entry.2)).addEntries entries := by
  rw [← add_record_eq]
  rfl

/-- One more record that is charged at the end adds its counts. -/
theorem add_entries_concat (table : Table) (entries : List (ResultKey × TestRecord))
    (entry : ResultKey × TestRecord) :
    table.addEntries (entries ++ [entry]) =
      (table.addEntries entries).add entry.1 (Counts.ofRecord entry.2) := by
  rw [← add_record_eq]
  exact List.foldl_concat ..

/-- Records are charged one list after the other. -/
theorem add_entries_append (table : Table) (entries others : List (ResultKey × TestRecord)) :
    table.addEntries (entries ++ others) = (table.addEntries entries).addEntries others :=
  List.foldl_append

/-- Records that are added one by one can be collected in a table of their own first. -/
theorem add_entries_eq_merge (table : Table) (entries : List (ResultKey × TestRecord)) :
    table.addEntries entries = table.merge (empty.addEntries entries) := by
  induction entries using List.reverseRecOn with
  | nil => rfl
  | append_singleton entries entry ih =>
      rw [add_entries_concat, add_entries_concat, merge_add, ih]

/-- A table agrees with itself. -/
theorem agrees_refl (table : Table) : table.agrees table = true :=
  (agrees_iff_forall₂ table table).mpr (List.forall₂_same.mpr fun row _ => ⟨row.1.order_self, rfl⟩)

/-- Tables that agree with a third one agree with each other. -/
theorem agrees_trans {first second third : Table} (h : first.agrees second = true)
    (h' : second.agrees third = true) : first.agrees third = true := by
  rw [agrees_iff_forall₂] at h h' ⊢
  generalize first.rows = rows, second.rows = rows', third.rows = others at h h' ⊢
  induction h generalizing others with
  | nil =>
      cases h'
      exact .nil
  | cons hrow _ ih =>
      cases h' with
      | cons hrow' hrest' =>
          exact .cons ⟨Std.TransCmp.eq_trans hrow.1 hrow'.1, hrow.2.trans hrow'.2⟩ (ih _ hrest')

/-- Rows that are the same up to the spelling of paths stay so when counts are added. -/
theorem add_row_agrees {rows others : List (ResultKey × Counts)}
    (h : List.Forall₂ (fun x y => x.1.order y.1 = .eq ∧ x.2 = y.2) rows others)
    (hkey : key.order other = .eq) (counts : Counts) :
    List.Forall₂ (fun x y => x.1.order y.1 = .eq ∧ x.2 = y.2)
      (addRow key counts rows) (addRow other counts others) := by
  induction h with
  | nil => exact .cons ⟨hkey, rfl⟩ .nil
  | @cons row row' rest rest' hrow hrest ih =>
      have hcongr : key.order row.1 = other.order row'.1 :=
        (Std.TransCmp.congr_left hkey).trans (Std.TransCmp.congr_right hrow.1)
      cases horder : other.order row'.1 with
      | lt =>
          rw [add_row_of_lt (hcongr.trans horder), add_row_of_lt horder]
          exact .cons ⟨hkey, rfl⟩ (.cons hrow hrest)
      | eq =>
          rw [add_row_of_eq (hcongr.trans horder), add_row_of_eq horder]
          exact .cons ⟨hrow.1, by rw [hrow.2]⟩ hrest
      | gt =>
          rw [add_row_of_gt (hcongr.trans horder), add_row_of_gt horder]
          exact .cons hrow ih

/-- Tables that agree do so when the same counts are added under two spellings of a key. -/
theorem add_agrees {first second : Table} (h : first.agrees second = true)
    (hkey : key.order other = .eq) (counts : Counts) :
    (first.add key counts).agrees (second.add other counts) = true := by
  rw [agrees_iff_forall₂] at h ⊢
  exact add_row_agrees h hkey counts

/-- The order of two additions decides nothing but the spelling of a key. -/
theorem add_add_agrees (table : Table) (key other : ResultKey) (counts more : Counts) :
    ((table.add key counts).add other more).agrees
      ((table.add other more).add key counts) = true := by
  by_cases h : key.order other = .eq
  · have hswap : other.order key = .eq := Std.OrientedCmp.eq_symm h
    rw [add_add_same h, add_add_same hswap, Counts.add_comm more counts]
    exact add_agrees (agrees_refl table) h _
  · rw [add_add_comm h]
    exact agrees_refl _

/-- Tables that agree do so after the same records. -/
theorem add_same_entries_agrees {first second : Table} (h : first.agrees second = true)
    (entries : List (ResultKey × TestRecord)) :
    (first.addEntries entries).agrees (second.addEntries entries) = true := by
  induction entries generalizing first second with
  | nil => exact h
  | cons entry rest ih =>
      rw [add_entries_cons, add_entries_cons]
      exact ih (add_agrees h entry.1.order_self _)

/-- The order of records decides nothing but the spelling of paths. -/
theorem add_entries_agrees {first second : Table} (h : first.agrees second = true)
    {entries others : List (ResultKey × TestRecord)} (hperm : entries.Perm others) :
    (first.addEntries entries).agrees (second.addEntries others) = true := by
  induction hperm generalizing first second with
  | nil => exact h
  | cons entry _ ih =>
      rw [add_entries_cons, add_entries_cons]
      exact ih (add_agrees h entry.1.order_self _)
  | swap entry entry' rest =>
      rw [add_entries_cons, add_entries_cons, add_entries_cons, add_entries_cons]
      have hswapped := add_add_agrees first entry'.1 entry.1 (Counts.ofRecord entry'.2)
        (Counts.ofRecord entry.2)
      have hsame := add_agrees (add_agrees h entry.1.order_self (Counts.ofRecord entry.2))
        entry'.1.order_self (Counts.ofRecord entry'.2)
      exact add_same_entries_agrees (agrees_trans hswapped hsame) rest
  | trans _ _ ih ih' => exact agrees_trans (ih h) (ih' (agrees_refl second))

end Table

/-- Parsing a report into a table is parsing it into an empty one and merging that: what is wrong
and what is told do not depend on the table, and the results that were charged up to the end or to
the fault are those that the report amounts to by itself. -/
theorem parse_merges_alone (dialect : Dialect) (path : Path) (bytes : List UInt8) (map : MethodMap)
    (table : Table) :
    let parsed := dialect.parse path bytes map table
    let alone := dialect.parse path bytes map .empty
    parsed.failure = alone.failure ∧ parsed.events = alone.events ∧
      parsed.table = table.merge alone.table :=
  ⟨rfl, rfl, Table.add_entries_eq_merge table _⟩

end TestMeasures
