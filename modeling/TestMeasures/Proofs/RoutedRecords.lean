import Mathlib.Data.List.Perm.Basic
import Mathlib.Logic.Function.Basic
import TestMeasures.Proofs.TableMerge

/-!
# Tables that take records and one another

Records are charged to any number of tables, and tables are merged into others, in any order. What a table
comes to hold is told by the records that were routed to it, on their own or inside of a table that it took:
`TableStep.tables_after_eq` says so for every run, and `routed_records_tallied` reads off it that a row holds
the exact counts of its records, cut to the largest count.
-/

namespace TestMeasures

namespace Count

/-- Cutting numbers and adding them is adding them and cutting the sum. -/
theorem clamp_add (a b : Nat) : clamp a + clamp b = clamp (a + b) := by
  ext
  simp only [val_add, clamp, limit]
  omega

/-- Cutting the value of a count changes nothing. -/
theorem clamp_val (a : Count) : clamp a.val = a := by
  ext
  have hle := a.le_limit
  simp only [clamp, limit]
  omega

end Count

namespace Counts

/-- The times of the records that have one. -/
def times (records : List TestRecord) : List Count :=
  records.filterMap TestRecord.duration

/-- The counts of records: every field is the exact number or sum, cut to the largest count, and there is a
time if some record has one. -/
def tally (records : List TestRecord) : Counts where
  tests := .clamp records.length
  skipped := .clamp (records.countP (·.outcome == .skipped))
  failures := .clamp (records.countP (·.outcome == .failed))
  errors := .clamp (records.countP (·.outcome == .error))
  time := if times records = [] then none else some (.clamp ((times records).map Count.val).sum)

/-- A counter goes up by one for the records that it is about. -/
theorem clamp_count_cons (wanted : Outcome) (record : TestRecord) (records : List TestRecord) :
    Count.clamp ((record :: records).countP (·.outcome == wanted)) =
      (if record.outcome = wanted then 1 else 0) + Count.clamp (records.countP (·.outcome == wanted)) := by
  rw [List.countP_cons]
  by_cases h : record.outcome = wanted
  · have hone : (1 : Count) = Count.clamp 1 := rfl
    simp [h, hone, Count.clamp_add, Nat.add_comm]
  · simp [h]

/-- One more record is added to a tally as it is to counts. -/
theorem tally_cons (record : TestRecord) (records : List TestRecord) :
    tally (record :: records) = ofRecord record + tally records := by
  ext1
  case htests =>
    have hone : (1 : Count) = Count.clamp 1 := rfl
    simp [tally, ofRecord, hone, Count.clamp_add, Nat.add_comm]
  case hskipped => exact clamp_count_cons .skipped record records
  case hfailures => exact clamp_count_cons .failed record records
  case herrors => exact clamp_count_cons .error record records
  case htime =>
    rw [time_add]
    cases hduration : record.duration with
    | none => simp [tally, ofRecord, times, hduration]
    | some time =>
        have htimes : times (record :: records) = time :: times records := by simp [times, hduration]
        simp only [tally, ofRecord, htimes, hduration, List.cons_ne_nil, if_false, List.map_cons,
          List.sum_cons, ← Count.clamp_add, Count.clamp_val]
        by_cases hnone : times records = []
        · have hzero : Count.clamp 0 = 0 := rfl
          simp [hnone, hzero]
        · simp [hnone]

/-- Adding up records one by one gives their tally. -/
theorem sum_records (records : List TestRecord) : (records.map ofRecord).sum = tally records := by
  induction records with
  | nil => rfl
  | cons record rest ih => rw [List.map_cons, List.sum_cons, ih, tally_cons]

/-- The order of records makes no difference to their tally. -/
theorem tally_perm {records others : List TestRecord} (h : records.Perm others) :
    tally records = tally others := by
  rw [← sum_records, ← sum_records, (h.map ofRecord).sum_eq]

end Counts

/-- A record and the key that it is charged to. -/
abbrev RoutedRecord := ResultKey × TestRecord

/-- The records among some that are charged to a key, under any spelling of it. -/
def recordsUnder (key : ResultKey) (entries : List RoutedRecord) : List TestRecord :=
  (entries.filter fun entry => key.order entry.1 == .eq).map Prod.snd

namespace Table

/-- The row of a key holds the tally of the records that were charged to it. -/
theorem get_add_entries (entries : List RoutedRecord) (key : ResultKey) :
    (empty.addEntries entries).get? key =
      if recordsUnder key entries = [] then none else some (.tally (recordsUnder key entries)) := by
  induction entries using List.reverseRecOn with
  | nil => rfl
  | append_singleton entries entry ih =>
      rw [add_entries_concat, get_add, ih]
      by_cases hkey : key.order entry.1 = .eq
      · have hunder : recordsUnder key (entries ++ [entry]) = recordsUnder key entries ++ [entry.2] := by
          simp [recordsUnder, hkey]
        have htally : Counts.tally (recordsUnder key entries ++ [entry.2]) =
            Counts.tally (recordsUnder key entries) + Counts.ofRecord entry.2 := by
          rw [← Counts.sum_records, ← Counts.sum_records, List.map_append, List.sum_append]
          simp
        have hsome : recordsUnder key entries ++ [entry.2] ≠ [] := by simp
        rw [hunder, htally, if_neg hsome, share, if_pos hkey]
        by_cases hnone : recordsUnder key entries = []
        · have hempty : Counts.tally [] = 0 := rfl
          simp [hnone, hempty]
        · simp [hnone]
      · have hunder : recordsUnder key (entries ++ [entry]) = recordsUnder key entries := by
          simp [recordsUnder, hkey]
        rw [hunder, share, if_neg hkey]
        cases (if recordsUnder key entries = [] then none
          else some (Counts.tally (recordsUnder key entries))) <;> rfl

/-- A row of a table is what the table answers for its key. -/
theorem get_of_mem {table : Table} {row : ResultKey × Counts} (hrow : row ∈ table.rows) :
    table.get? row.1 = some row.2 := by
  rw [get_eq_lookup]
  have hordered := table.ordered
  generalize table.rows = rows at hordered hrow ⊢
  induction rows with
  | nil => cases hrow
  | cons head rest ih =>
      obtain ⟨hhead, hrest⟩ := List.pairwise_cons.mp hordered
      unfold lookup
      rcases List.mem_cons.mp hrow with rfl | hrow
      · rw [if_pos (ResultKey.order_self _)]
      · have hbehind : row.1.order head.1 = .gt := Std.OrientedCmp.gt_of_lt (hhead row hrow)
        rw [if_neg (by simp [hbehind])]
        exact ih hrest hrow

/-- The total is the tally of all records, whatever they are charged to. -/
theorem total_of_entries (entries : List RoutedRecord) :
    (empty.addEntries entries).total = .tally (entries.map Prod.snd) := by
  rw [← Counts.sum_records]
  induction entries using List.reverseRecOn with
  | nil => rfl
  | append_singleton entries entry ih =>
      rw [add_entries_concat, List.map_append, List.map_append, List.sum_append, ← ih, total_add]
      simp

/-- The total is the sum over the source files and what no file was found for. -/
theorem total_eq_files (table : Table) :
    table.total = Counts.sum (table.files.map Prod.snd) + table.unattributed?.getD .empty := by
  unfold total unattributed? files
  rw [get_eq_lookup, Counts.sum_eq, Counts.sum_eq]
  have hordered := table.ordered
  generalize table.rows = rows at hordered ⊢
  induction rows with
  | nil => rfl
  | cons head rest ih =>
      obtain ⟨hhead, hrest⟩ := List.pairwise_cons.mp hordered
      obtain ⟨key, counts⟩ := head
      cases key with
      | file path =>
          have hlookup : lookup .unattributed ((.file path, counts) :: rest) =
              lookup .unattributed rest := if_neg (by simp [ResultKey.order])
          rw [List.map_cons, List.sum_cons, ih hrest, hlookup, ← add_assoc]
          rfl
      | unattributed =>
          -- The row of the unattributed tests is the last one.
          have hlast : rest = [] := by
            refine List.eq_nil_iff_forall_not_mem.mpr fun row hrow => ?_
            have hlt := hhead row hrow
            cases hkey : row.1 <;> simp [hkey, ResultKey.order] at hlt
          subst hlast
          simp [ResultKey.file?, lookup]

end Table

/-- Something that happens to one or two of a family of tables. -/
inductive TableStep (ι : Type) where
  /-- A record is charged to a key of a table. -/
  | record (name : ι) (entry : RoutedRecord)
  /-- A table is taken away, leaving an empty one, and merged into a table. -/
  | merge (into taken : ι)

namespace TableStep

variable {ι : Type} [DecidableEq ι] {α : Type}

/-- What a step does to a family of things that records can be added to and that can be joined. -/
def act (none : α) (add : α → RoutedRecord → α) (join : α → α → α) (family : ι → α) :
    TableStep ι → ι → α
  | .record name entry => Function.update family name (add (family name) entry)
  | .merge into taken =>
    let left := Function.update family taken none
    Function.update left into (join (left into) (family taken))

/-- What a step does to tables. -/
def actOnTables : (ι → Table) → TableStep ι → ι → Table :=
  act .empty (fun table entry => table.addRecord entry.1 entry.2) Table.merge

/-- What a step does to lists of the records that were routed to each table. -/
def actOnRecords : (ι → List RoutedRecord) → TableStep ι → ι → List RoutedRecord :=
  act [] (fun entries entry => entries ++ [entry]) (· ++ ·)

/-- The tables after steps, all empty at first. -/
def tablesAfter (steps : List (TableStep ι)) : ι → Table :=
  steps.foldl actOnTables fun _ => .empty

/-- The records that steps have routed to each table: those charged to it, and those that had been routed to
the tables it took. -/
def routedBy (steps : List (TableStep ι)) : ι → List RoutedRecord :=
  steps.foldl actOnRecords fun _ => []

/-- A step keeps a relation between two families that adding a record and joining keep. -/
theorem act_related {β : Type} (related : α → β → Prop) {none : α} {none' : β}
    {add : α → RoutedRecord → α} {add' : β → RoutedRecord → β} {join : α → α → α} {join' : β → β → β}
    (hnone : related none none') (hadd : ∀ a b entry, related a b → related (add a entry) (add' b entry))
    (hjoin : ∀ a b a' b', related a b → related a' b' → related (join a a') (join' b b'))
    {family : ι → α} {family' : ι → β} (h : ∀ name, related (family name) (family' name))
    (step : TableStep ι) (name : ι) :
    related (act none add join family step name) (act none' add' join' family' step name) := by
  have hupdate : ∀ {family : ι → α} {family' : ι → β}, (∀ name, related (family name) (family' name)) →
      ∀ (place : ι) {a b}, related a b → ∀ name,
        related (Function.update family place a name) (Function.update family' place b name) := by
    intro family family' h place a b hab name
    by_cases hname : name = place
    · subst hname
      simpa using hab
    · simpa [hname] using h name
  cases step with
  | record place entry => exact hupdate h place (hadd _ _ entry (h place)) name
  | merge into taken =>
      have hleft := hupdate h taken hnone
      exact hupdate hleft into (hjoin _ _ _ _ (hleft into) (h taken)) name

/-- Tables that hold what was routed to them do so after a step. -/
theorem act_tables {tables : ι → Table} {routed : ι → List RoutedRecord}
    (h : ∀ name, tables name = Table.empty.addEntries (routed name)) (step : TableStep ι) (name : ι) :
    actOnTables tables step name = Table.empty.addEntries (actOnRecords routed step name) := by
  have hnone : Table.empty = Table.empty.addEntries [] := rfl
  have hadd : ∀ (table : Table) entries (entry : RoutedRecord), table = Table.empty.addEntries entries →
      table.addRecord entry.1 entry.2 = Table.empty.addEntries (entries ++ [entry]) := by
    intro table entries entry htable
    rw [htable, Table.add_entries_concat, Table.add_record_eq]
  have hjoin : ∀ (table : Table) entries (table' : Table) entries', table = Table.empty.addEntries entries →
      table' = Table.empty.addEntries entries' →
      table.merge table' = Table.empty.addEntries (entries ++ entries') := by
    intro table entries table' entries' htable htable'
    rw [htable, htable', Table.add_entries_append, Table.add_entries_eq_merge (Table.empty.addEntries entries)]
  exact act_related (fun table entries => table = Table.empty.addEntries entries) hnone hadd hjoin h step name

/-- After any steps, a table holds what comes of adding, in order, the records that were routed to it. -/
theorem tables_after_eq (steps : List (TableStep ι)) (name : ι) :
    tablesAfter steps name = Table.empty.addEntries (routedBy steps name) := by
  unfold tablesAfter routedBy
  induction steps using List.reverseRecOn generalizing name with
  | nil => rfl
  | append_singleton steps step ih =>
      rw [List.foldl_append, List.foldl_append]
      exact act_tables ih step name

end TableStep

open TableStep

/-- Whatever records were charged to tables and whatever tables were merged into others, a table's rows stand
in strictly increasing key order, so no path has two of them. The row of a key holds the exact counts of the
records that were routed to this key of this table, each cut to the largest count, with a time if one of them
had a time; there is no other row. The total does the same for all records of the table, and it is the sum
over the source files and what no file was found for. Hence neither the order of records nor the order or the
grouping of merges makes a difference: tables to which the same records were routed agree. -/
theorem routed_records_tallied {ι : Type} [DecidableEq ι] (steps : List (TableStep ι)) (name : ι) :
    let table := tablesAfter steps name
    let routed := routedBy steps name
    (table.rows.Pairwise fun a b => a.1.order b.1 = .lt) ∧
    (table.files.Pairwise fun a b => a.1.components ≠ b.1.components) ∧
    (∀ row ∈ table.rows, recordsUnder row.1 routed ≠ [] ∧ row.2 = .tally (recordsUnder row.1 routed)) ∧
    (∀ key, table.get? key =
      if recordsUnder key routed = [] then none else some (.tally (recordsUnder key routed))) ∧
    table.total = .tally (routed.map Prod.snd) ∧
    table.total = Counts.sum (table.files.map Prod.snd) + table.unattributed?.getD .empty ∧
    ∀ {κ : Type} [DecidableEq κ] (others : List (TableStep κ)) (other : κ),
      (∀ key, (recordsUnder key routed).Perm (recordsUnder key (routedBy others other))) →
        table.agrees (tablesAfter others other) = true := by
  intro table routed
  have htable : table = Table.empty.addEntries routed := tables_after_eq steps name
  have hget : ∀ key, table.get? key =
      if recordsUnder key routed = [] then none else some (.tally (recordsUnder key routed)) := by
    rw [htable]
    exact Table.get_add_entries routed
  refine ⟨table.ordered, table.files_distinct, fun row hrow => ?_, hget, ?_, table.total_eq_files,
    fun others other hsame => ?_⟩
  · have hcounts := (hget row.1).symm.trans (Table.get_of_mem hrow)
    split at hcounts
    case isTrue => cases hcounts
    case isFalse hsome => exact ⟨hsome, (Option.some.inj hcounts).symm⟩
  · rw [htable, Table.total_of_entries]
  · rw [Table.agrees_iff]
    intro key
    rw [hget, tables_after_eq others, Table.get_add_entries, Counts.tally_perm (hsame key)]
    have hnone : recordsUnder key routed = [] ↔ recordsUnder key (routedBy others other) = [] := by
      rw [← List.length_eq_zero_iff, (hsame key).length_eq, List.length_eq_zero_iff]
    simp only [hnone]

end TestMeasures
