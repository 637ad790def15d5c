import Mathlib.Tactic.Abel
import TestMeasures.Proofs.CountSums
import TestMeasures.Proofs.PathOrder

/-!
# Tables as maps from keys to counts

A table is known by what `Table.get?` answers: `Table.get_update` says how a change acts on the answers,
`Table.get_add` and `Table.get_merge` say so for adding and merging, and `Table.agrees_iff` says that tables
agree when their answers do. A record is charged to a key by adding its counts (`Table.add_record_eq`), since
the counts of nothing that a new row starts with add nothing.
-/

namespace TestMeasures

namespace Table

/-- What counts under one key contribute to another key. -/
def share (key : ResultKey) (row : ResultKey × Counts) : Option Counts :=
  if key.order row.1 = .eq then some row.2 else none

/-- What rows say about a key: the counts of the first row that has it. -/
def lookup (key : ResultKey) : List (ResultKey × Counts) → Option Counts
  | [] => none
  | row :: rest => if key.order row.1 = .eq then some row.2 else lookup key rest

/-- A table answers with what its rows say. -/
theorem get_eq_lookup (table : Table) (key : ResultKey) :
    table.get? key = lookup key table.rows := by
  unfold get?
  induction table.rows with
  | nil => rfl
  | cons row rest ih =>
      unfold lookup
      by_cases h : key.order row.1 = .eq
      · simp [h]
      · simp [h, ← ih]

/-- A key before the first of ordered rows has no counts in them. -/
theorem lookup_eq_none {key : ResultKey} {rows : List (ResultKey × Counts)}
    (h : ∀ row ∈ rows, key.order row.1 = .lt) : lookup key rows = none := by
  induction rows with
  | nil => rfl
  | cons row rest ih =>
      have hne : key.order row.1 ≠ .eq := by simp [h row (by simp)]
      rw [lookup, if_neg hne]
      exact ih fun other hother => h other (by simp [hother])

/-- Ordered rows say nothing about a key before their first one. -/
theorem lookup_before_head {key : ResultKey} {head : ResultKey × Counts} {rest : List (ResultKey × Counts)}
    (h : (head :: rest).Pairwise fun a b => a.1.order b.1 = .lt) (hlt : key.order head.1 = .lt) :
    lookup key (head :: rest) = none := by
  refine lookup_eq_none fun row hrow => ?_
  rcases List.mem_cons.mp hrow with rfl | hrow
  · exact hlt
  · exact Std.TransCmp.lt_trans hlt ((List.pairwise_cons.mp h).1 row hrow)

/-- Behind the first of ordered rows nothing is said about its key. -/
theorem lookup_behind_head {key : ResultKey} {head : ResultKey × Counts} {rest : List (ResultKey × Counts)}
    (h : (head :: rest).Pairwise fun a b => a.1.order b.1 = .lt) (heq : key.order head.1 = .eq) :
    lookup key rest = none := by
  refine lookup_eq_none fun row hrow => ?_
  rw [Std.TransCmp.congr_left heq]
  exact (List.pairwise_cons.mp h).1 row hrow

/-- A change acts on what rows say about its key, and on nothing else. -/
theorem lookup_update_row {rows : List (ResultKey × Counts)}
    (h : rows.Pairwise fun a b => a.1.order b.1 = .lt) (key : ResultKey)
    (change : Option Counts → Counts) (wanted : ResultKey) :
    lookup wanted (updateRow key change rows) =
      if wanted.order key = .eq then some (change (lookup wanted rows)) else lookup wanted rows := by
  induction rows with
  | nil => rfl
  | cons head rest ih =>
      have hrest := (List.pairwise_cons.mp h).2
      unfold updateRow
      split
      case h_1 hlt =>
        -- The new row comes first, and no later row has its key.
        by_cases hkey : wanted.order key = .eq
        · have hbefore : wanted.order head.1 = .lt := (Std.TransCmp.congr_left hkey).trans hlt
          rw [lookup_before_head h hbefore, lookup, if_pos hkey, if_pos hkey]
        · rw [lookup, if_neg hkey, if_neg hkey]
      case h_2 heq =>
        have hsame : wanted.order key = wanted.order head.1 := Std.TransCmp.congr_right heq
        by_cases hkey : wanted.order head.1 = .eq
        · simp [lookup, hsame, hkey]
        · simp [lookup, hsame, hkey]
      case h_3 hgt =>
        -- The head keeps its counts, since the new key lies behind it.
        by_cases hkey : wanted.order head.1 = .eq
        · have hne : wanted.order key ≠ .eq := by
            rw [Std.TransCmp.congr_left hkey, Std.OrientedCmp.lt_of_gt hgt]
            simp
          simp [lookup, hkey, hne]
        · simp only [lookup, hkey, if_false]
          exact ih hrest

/-- Changing what stands under a key changes what the table answers for that key, and for no other. -/
theorem get_update (table : Table) (key : ResultKey) (change : Option Counts → Counts)
    (wanted : ResultKey) :
    (table.update key change).get? wanted =
      if wanted.order key = .eq then some (change (table.get? wanted)) else table.get? wanted := by
  rw [get_eq_lookup, get_eq_lookup]
  exact lookup_update_row table.ordered key change wanted

/-- Adding counts under a key adds them to what the table answers for that key, and for no other. -/
theorem get_add (table : Table) (key : ResultKey) (counts : Counts) (wanted : ResultKey) :
    (table.add key counts).get? wanted =
      Option.merge (· + ·) (table.get? wanted) (share wanted (key, counts)) := by
  rw [add, get_update, share]
  by_cases hkey : wanted.order key = .eq
  · rw [if_pos hkey, if_pos hkey]
    cases table.get? wanted <;> rfl
  · rw [if_neg hkey, if_neg hkey]
    cases table.get? wanted <;> rfl

/-- To charge a record is to add its counts: those of nothing, with which a new row starts, add nothing. -/
theorem add_record_eq (table : Table) (key : ResultKey) (record : TestRecord) :
    table.addRecord key record = table.add key (Counts.ofRecord record) := by
  unfold addRecord add
  congr 1
  funext held
  cases held with
  | none => exact Counts.zero_add (Counts.ofRecord record)
  | some counts => rfl

/-- The shares of ordered rows add up to what the rows say. -/
theorem foldl_share {rows : List (ResultKey × Counts)}
    (h : rows.Pairwise fun a b => a.1.order b.1 = .lt) (key : ResultKey) (held : Option Counts) :
    rows.foldl (fun sum row => Option.merge (· + ·) sum (share key row)) held =
      Option.merge (· + ·) held (lookup key rows) := by
  induction rows generalizing held with
  | nil => cases held <;> rfl
  | cons head rest ih =>
      rw [List.foldl_cons, ih (List.pairwise_cons.mp h).2]
      by_cases hkey : key.order head.1 = .eq
      · simp [lookup, share, hkey, lookup_behind_head h hkey]
      · simp [lookup, share, hkey]

/-- Merging adds what two tables answer, key by key. -/
theorem get_merge (table other : Table) (key : ResultKey) :
    (table.merge other).get? key = Option.merge (· + ·) (table.get? key) (other.get? key) := by
  rw [get_eq_lookup other, ← foldl_share other.ordered]
  unfold merge
  induction other.rows generalizing table with
  | nil => rfl
  | cons row rest ih => rw [List.foldl_cons, List.foldl_cons, ih, get_add]

/-- The relation of tables that have the same rows, up to the spelling of paths. -/
theorem agrees_iff_forall₂ (a b : Table) :
    a.agrees b = true ↔
      List.Forall₂ (fun x y => x.1.order y.1 = .eq ∧ x.2 = y.2) a.rows b.rows := by
  unfold agrees
  generalize a.rows = rows, b.rows = others
  induction rows generalizing others with
  | nil => cases others <;> simp
  | cons row rest ih =>
      cases others with
      | nil => simp
      | cons other others =>
          rw [List.forall₂_cons, ← ih others]
          simp only [List.length_cons, List.zip_cons_cons, List.all_cons, Bool.and_eq_true,
            beq_iff_eq, Nat.add_right_cancel_iff]
          tauto

/-- Rows that are the same up to the spelling of paths say the same about every key. -/
theorem lookup_eq_of_forall₂ {rows others : List (ResultKey × Counts)}
    (h : List.Forall₂ (fun x y => x.1.order y.1 = .eq ∧ x.2 = y.2) rows others)
    (key : ResultKey) : lookup key rows = lookup key others := by
  induction h with
  | nil => rfl
  | cons hhead _ ih => simp only [lookup, Std.TransCmp.congr_right hhead.1, hhead.2, ih]

/-- A key that an ordered list answers for does not stand before its first key. -/
theorem order_head_ne_lt {row other : ResultKey × Counts} {others : List (ResultKey × Counts)}
    (hothers : (other :: others).Pairwise fun a b => a.1.order b.1 = .lt)
    (h : lookup row.1 (other :: others) = some row.2) : row.1.order other.1 ≠ .lt := by
  intro hlt
  rw [lookup_before_head hothers hlt] at h
  cases h

/-- Ordered rows that say the same about every key are the same up to the spelling of paths. -/
theorem forall₂_of_lookup_eq {rows others : List (ResultKey × Counts)}
    (hrows : rows.Pairwise fun a b => a.1.order b.1 = .lt)
    (hothers : others.Pairwise fun a b => a.1.order b.1 = .lt)
    (h : ∀ key, lookup key rows = lookup key others) :
    List.Forall₂ (fun x y => x.1.order y.1 = .eq ∧ x.2 = y.2) rows others := by
  induction rows generalizing others with
  | nil =>
      cases others with
      | nil => exact .nil
      | cons other others =>
          have hother := h other.1
          simp [lookup] at hother
  | cons row rest ih =>
      have hrow : lookup row.1 others = some row.2 := by
        rw [← h row.1]
        simp [lookup]
      cases others with
      | nil => cases hrow
      | cons other others =>
          have hother : lookup other.1 (row :: rest) = some other.2 := by
            rw [h other.1]
            simp [lookup]
          -- Each head has an answer in the other list, so neither key stands before the other.
          have hkey : row.1.order other.1 = .eq := by
            have hlt := order_head_ne_lt hothers hrow
            have hgt := order_head_ne_lt hrows hother
            rw [ResultKey.order_swap] at hgt
            cases hcmp : row.1.order other.1 <;> simp_all
          have hcounts : row.2 = other.2 := by simpa [lookup, hkey] using hrow.symm
          refine .cons ⟨hkey, hcounts⟩
            (ih (List.pairwise_cons.mp hrows).2 (List.pairwise_cons.mp hothers).2 fun key => ?_)
          -- Behind the heads nothing is said about their key; about other keys the heads say nothing.
          by_cases hat : key.order row.1 = .eq
          · have hat' : key.order other.1 = .eq := Std.TransCmp.congr_right hkey ▸ hat
            rw [lookup_behind_head hrows hat, lookup_behind_head hothers hat']
          · have hat' : key.order other.1 ≠ .eq := Std.TransCmp.congr_right hkey ▸ hat
            simpa [lookup, hat, hat'] using h key

/-- Tables agree exactly when they answer the same for every key. -/
theorem agrees_iff {a b : Table} :
    a.agrees b = true ↔ ∀ key, a.get? key = b.get? key := by
  rw [agrees_iff_forall₂]
  simp only [get_eq_lookup]
  exact ⟨lookup_eq_of_forall₂, forall₂_of_lookup_eq a.ordered b.ordered⟩

/-- The source files of a table are pairwise different paths. -/
theorem files_distinct (table : Table) :
    table.files.Pairwise fun a b => a.1.components ≠ b.1.components := by
  refine List.Pairwise.filterMap _ ?_ table.ordered
  intro row other hlt file hfile file' hfile'
  obtain ⟨key, counts⟩ := row
  obtain ⟨key', counts'⟩ := other
  cases key <;> cases key' <;> simp [ResultKey.file?] at hfile hfile'
  case file.file path path' =>
    subst hfile hfile'
    intro hsame
    have heq : path.order path' = .lt := hlt
    rw [Path.order_eq_iff.mpr hsame] at heq
    cases heq

/-- Adding counts adds them to the total, whatever key they stand under. -/
theorem total_add (table : Table) (key : ResultKey) (counts : Counts) :
    (table.add key counts).total = table.total + counts := by
  simp only [total, add, update, Counts.sum_eq]
  induction table.rows with
  | nil => simp [updateRow]
  | cons head rest ih =>
      unfold updateRow
      split <;> simp only [List.map_cons, List.sum_cons, Option.elim_none, Option.elim_some]
      case h_1 => abel
      case h_2 => abel
      case h_3 =>
        rw [ih]
        abel

/-- Merging adds the totals of two tables. -/
theorem total_merge (table other : Table) :
    (table.merge other).total = table.total + other.total := by
  have htotal : other.total = (other.rows.map Prod.snd).sum := Counts.sum_eq _
  rw [htotal]
  unfold merge
  induction other.rows generalizing table with
  | nil => exact (add_zero table.total).symm
  | cons row rest ih =>
      rw [List.foldl_cons, ih, total_add, List.map_cons, List.sum_cons]
      exact Counts.add_assoc _ _ _

end Table

end TestMeasures
