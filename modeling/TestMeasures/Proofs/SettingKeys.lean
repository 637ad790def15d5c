import TestMeasures.Proofs.SettingShape

/-!
# Keys that stand once

A table holds each of its keys once. Merging keeps it so, and so do key expressions wherever they lead:
`add_top_once` is the step from one key of a document to the next.
-/

namespace TestMeasures

/-- A value is put under a key: in the place of the one that stands there, otherwise at the end. -/
inductive Puts {α : Type} (key : String) (value : α) : List (String × α) → List (String × α) → Prop where
  | new : Puts key value [] [(key, value)]
  | held {old : α} {rest : List (String × α)} : Puts key value ((key, old) :: rest) ((key, value) :: rest)
  | behind {entry : String × α} {rest rest' : List (String × α)} (hne : entry.1 ≠ key)
      (h : Puts key value rest rest') : Puts key value (entry :: rest) (entry :: rest')

namespace Puts

variable {α : Type} {key : String} {value : α} {entries entries' : List (String × α)}

/-- An entry of the result is the one that was put or stood there before. -/
theorem mem (h : Puts key value entries entries') {entry : String × α} (hmem : entry ∈ entries') :
    entry = (key, value) ∨ entry ∈ entries := by
  induction h with
  | new => exact .inl (List.mem_singleton.mp hmem)
  | held => exact (List.mem_cons.mp hmem).imp_right (List.mem_cons_of_mem _)
  | behind _ _ ih =>
      rcases List.mem_cons.mp hmem with rfl | hmem
      · exact .inr List.mem_cons_self
      · exact (ih hmem).imp_right (List.mem_cons_of_mem _)

/-- Distinct keys stay distinct when a value is put under a key. -/
theorem nodup (h : Puts key value entries entries') (hkeys : (entries.map Prod.fst).Nodup) :
    (entries'.map Prod.fst).Nodup := by
  induction h with
  | new => exact List.nodup_singleton key
  | held => exact hkeys
  | behind hne h ih =>
      obtain ⟨hentry, hrest⟩ := List.nodup_cons.mp hkeys
      refine List.nodup_cons.mpr ⟨fun hmem => ?_, ih hrest⟩
      obtain ⟨other, hother, heq⟩ := List.mem_map.mp hmem
      rcases h.mem hother with rfl | hother
      · exact hne heq.symm
      · exact hentry (heq ▸ List.mem_map_of_mem hother)

end Puts

namespace Setting

mutual

/-- Every table holds each of its keys once, at any depth. -/
def KeysOnce : Setting → Prop
  | .list _ items => ItemsOnce items
  | .table _ entries => EntriesOnce entries
  | _ => True

/-- The tables in list items hold each of their keys once. -/
def ItemsOnce : List Setting → Prop
  | [] => True
  | item :: rest => item.KeysOnce ∧ ItemsOnce rest

/-- Each key stands once, and the tables in entries hold each of their keys once. -/
def EntriesOnce : List (String × Setting) → Prop
  | [] => True
  | (key, setting) :: rest => key ∉ rest.map Prod.fst ∧ setting.KeysOnce ∧ EntriesOnce rest

end

/-- Entries hold their keys once exactly when the keys are distinct and each setting does. -/
theorem entries_once_iff {entries : List (String × Setting)} :
    EntriesOnce entries ↔ (entries.map Prod.fst).Nodup ∧ ∀ entry ∈ entries, entry.2.KeysOnce := by
  induction entries with
  | nil => simp [EntriesOnce]
  | cons entry rest ih =>
      rw [EntriesOnce, ih, List.map_cons, List.nodup_cons, List.forall_mem_cons]
      tauto

/-- The entries of a section stand under each key once. -/
theorem entries_under_nodup {setting : Setting} (h : setting.KeysOnce) {keys : List String}
    (hkeys : keys.Nodup) : ((setting.entriesUnder keys).map Prod.fst).Nodup := by
  cases setting with
  | table origin entries => exact (entries_once_iff.mp h).1
  | list origin items => exact zip_keys_nodup hkeys items
  | absent | truth | integer | number | text => exact List.nodup_nil

section sections

variable {settings : List (String × Setting)}

/-- The import section of settings that hold their keys once does so too. -/
theorem import_section_once (h : EntriesOnce settings) : (importSection settings).KeysOnce := by
  unfold importSection
  cases hfind : find? "import" settings with
  | some setting => exact (entries_once_iff.mp h).2 _ (mem_of_find hfind)
  | none => exact trivial

/-- The languages of settings that hold their keys once do so too. -/
theorem language_sections_once (h : EntriesOnce settings) : EntriesOnce (languageSections settings) := by
  unfold languageSections
  split
  case h_1 origin sections hfind => exact (entries_once_iff.mp h).2 _ (mem_of_find hfind)
  case h_2 => exact trivial

end sections

/-! ## Merging -/

/-- Items hold their keys once exactly when each of them does. -/
theorem items_once_iff {items : List Setting} : ItemsOnce items ↔ ∀ item ∈ items, item.KeysOnce := by
  induction items with
  | nil => simp [ItemsOnce]
  | cons item rest ih => rw [ItemsOnce, ih, List.forall_mem_cons]

/-- Putting a setting under a key puts it there. -/
theorem puts_put (key : String) (setting : Setting) (entries : List (String × Setting)) :
    Puts key setting entries (put key setting entries) := by
  induction entries with
  | nil => exact .new
  | cons entry rest ih =>
      obtain ⟨k, s⟩ := entry
      unfold put
      split
      case isTrue heq => exact heq ▸ .held
      case isFalse hne => exact .behind hne ih

/-- Entries hold their keys once when a setting that does so is put under a key. -/
theorem put_once {entries : List (String × Setting)} (h : EntriesOnce entries) (key : String)
    {setting : Setting} (hsetting : setting.KeysOnce) : EntriesOnce (put key setting entries) := by
  obtain ⟨hkeys, hentries⟩ := entries_once_iff.mp h
  refine entries_once_iff.mpr ⟨(puts_put key setting entries).nodup hkeys, fun entry hentry => ?_⟩
  rcases (puts_put key setting entries).mem hentry with rfl | hentry
  · exact hsetting
  · exact hentries entry hentry

/-- What stands under a key of entries that hold their keys once does so too. -/
theorem found_once {entries : List (String × Setting)} (h : EntriesOnce entries) (key : String) :
    ((find? key entries).getD .absent).KeysOnce := by
  cases hfind : find? key entries with
  | none => exact trivial
  | some setting => exact (entries_once_iff.mp h).2 _ (mem_of_find hfind)

/-- The item at a place of items that hold their keys once does so too. -/
theorem item_at_once {items : List Setting} (h : ItemsOnce items) (place : Nat) :
    (items.getD place .absent).KeysOnce := by
  rw [List.getD_eq_getElem?_getD]
  cases hget : items[place]? with
  | none => exact trivial
  | some item => exact items_once_iff.mp h item (List.mem_of_getElem? hget)

/-- The entries of a setting taken as a table hold their keys once if the setting does. -/
theorem as_table_once {target : Setting} (h : target.KeysOnce) : EntriesOnce target.asTable.2 := by
  cases target with
  | table origin entries => exact h
  | absent | truth | integer | number | text | list => exact trivial

/-- The items of a setting taken as a list hold their keys once if the setting does. -/
theorem as_list_once {target : Setting} (h : target.KeysOnce) : ItemsOnce target.asList.2 := by
  cases target with
  | list origin items => exact h
  | absent | truth | integer | number | text | table => exact trivial

mutual

/-- A setting over another holds its keys once if both do. -/
theorem overlay_once {target : Setting} (h : target.KeysOnce) (value : Setting) (hvalue : value.KeysOnce) :
    (target.overlay value).KeysOnce := by
  cases value with
  | table origin entries => exact overlay_entries_once (as_table_once h) entries hvalue
  | absent | truth | integer | number | text | list => exact hvalue

/-- Entries over others hold their keys once if both do. -/
theorem overlay_entries_once {target : List (String × Setting)} (h : EntriesOnce target)
    (entries : List (String × Setting)) (hentries : EntriesOnce entries) :
    EntriesOnce (overlayEntries target entries) := by
  match entries with
  | [] => exact h
  | (key, value) :: rest =>
      obtain ⟨-, hvalue, hrest⟩ := hentries
      exact overlay_entries_once (put_once h key (overlay_once (found_once h key) value hvalue)) rest hrest

end

/-! ## Key expressions -/

/-- Items that are made to reach a place hold their keys once if the items do. -/
theorem reach_once {items : List Setting} (h : ItemsOnce items) (place : Int) :
    ItemsOnce (KeyExpression.reach place items).1 := by
  have habsent : ∀ n, ∀ item ∈ List.replicate n Setting.absent, item.KeysOnce := by
    intro n item hitem
    rw [(List.mem_replicate.mp hitem).2]
    exact trivial
  rw [items_once_iff] at h ⊢
  unfold KeyExpression.reach
  split
  · exact fun item hitem => (List.mem_append.mp hitem).elim (h item) (habsent _ item)
  · dsimp only
    split
    · exact h
    · exact fun item hitem => (List.mem_append.mp hitem).elim (habsent _ item) (h item)

/-- Assigning a value that holds its keys once leaves a setting that does. -/
theorem assign_once {value : Setting} (hvalue : value.KeysOnce) (steps : List KeyStep) {target : Setting}
    (h : target.KeysOnce) : (KeyExpression.assign value steps target).KeysOnce := by
  induction steps generalizing target with
  | nil => exact overlay_once h value hvalue
  | cons step rest ih =>
      cases step with
      | key name =>
          exact put_once (as_table_once h) name (ih (found_once (as_table_once h) name))
      | index place =>
          have hitems := items_once_iff.mp (reach_once (as_list_once h) place)
          refine items_once_iff.mpr fun item hitem => ?_
          rcases List.mem_or_eq_of_mem_set hitem with hitem | rfl
          · exact hitems item hitem
          · exact ih (item_at_once (reach_once (as_list_once h) place) _)

/-- A key that is added at the top leaves each key standing once. -/
theorem add_top_once {entries : List (String × Setting)} (h : EntriesOnce entries) (key : String)
    {value : Setting} (hvalue : value.KeysOnce) : EntriesOnce (addTop entries key value) :=
  put_once h _ (assign_once hvalue _ (found_once h _))

end Setting

end TestMeasures
