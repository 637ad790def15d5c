import TestMeasures.Proofs.SettingKeys

/-!
# Keys of documents

A document that defines a key twice is not read. So `document_once` says that the settings of a document hold
every key once, in each of their tables, wherever key expressions lead.
-/

namespace TestMeasures

open Setting (EntriesOnce)

namespace Toml

/-! ## Tables being read -/

variable {file : Option String}

/-- The tables of a value hold each of their keys once. -/
def Value.Once (file : Option String) (value : Value) : Prop :=
  (Setting.ofValue file value).KeysOnce

/-- The keys of a table being read stand once, and so do those of the tables in it. -/
def PartsOnce (file : Option String) (entries : Entries) : Prop :=
  (entries.map Prod.fst).Nodup ∧ ∀ entry ∈ entries, entry.2.value.Once file

/-- A list holds its keys once exactly when its values do. -/
theorem values_once_iff {values : List Value} :
    (Value.list values).Once file ↔ ∀ value ∈ values, value.Once file := by
  unfold Value.Once
  rw [Setting.ofValue, Setting.KeysOnce]
  induction values with
  | nil => simp [Setting.ofValues, Setting.ItemsOnce]
  | cons value rest ih => rw [Setting.ofValues, Setting.ItemsOnce, ih, List.forall_mem_cons]

/-- The settings of entries stand under the keys of the entries. -/
theorem keys_of_entry_values (entries : Entries) :
    (Setting.ofEntries file (entryValues entries)).map Prod.fst = entries.map Prod.fst := by
  induction entries with
  | nil => rfl
  | cons entry rest ih => exact congrArg (entry.1 :: ·) ih

/-- A table holds its keys once exactly when its entries do. -/
theorem parts_once_iff {entries : Entries} :
    (Value.table (entryValues entries)).Once file ↔ PartsOnce file entries := by
  show EntriesOnce (Setting.ofEntries file (entryValues entries)) ↔ _
  induction entries with
  | nil => simp [entryValues, Setting.ofEntries, EntriesOnce, PartsOnce]
  | cons entry rest ih =>
      rw [entryValues, Setting.ofEntries, EntriesOnce, ih, keys_of_entry_values, PartsOnce, PartsOnce,
        List.map_cons, List.nodup_cons, List.forall_mem_cons]
      unfold Value.Once
      tauto

/-- An array of tables holds its keys once exactly when each of its tables does. -/
theorem tables_once_iff {elements : List Entries} :
    (Part.tables elements).value.Once file ↔ ∀ entries ∈ elements, PartsOnce file entries := by
  have hmem : ∀ value,
      value ∈ elementValues elements ↔ ∃ entries ∈ elements, .table (entryValues entries) = value := by
    induction elements with
    | nil => simp [elementValues]
    | cons entries rest ih => simp [elementValues, ih, eq_comm]
  rw [Part.value, values_once_iff]
  simp only [List.mem_reverse, hmem, ← parts_once_iff]
  constructor
  · exact fun h entries hentries => h _ ⟨entries, hentries, rfl⟩
  · rintro h _ ⟨entries, hentries, rfl⟩
    exact h entries hentries

/-- An empty table holds its keys once. -/
theorem parts_once_nil : PartsOnce file [] :=
  ⟨List.nodup_nil, fun _ h => absurd h List.not_mem_nil⟩

/-- What stands under a key of a table that holds its keys once does so too. -/
theorem once_of_lookup {entries : Entries} (h : PartsOnce file entries) {key : String} {part : Part}
    (hlookup : lookup key entries = some part) : part.value.Once file := by
  obtain ⟨entry, hentry, rfl⟩ := Option.map_eq_some_iff.mp hlookup
  exact h.2 entry (List.mem_of_find?_eq_some hentry)

/-- Putting a part under a key puts it there. -/
theorem puts_put (key : String) (part : Part) (entries : Entries) :
    Puts key part entries (put key part entries) := by
  induction entries with
  | nil => exact .new
  | cons entry rest ih =>
      obtain ⟨k, p⟩ := entry
      unfold put
      split
      case isTrue heq => exact heq ▸ .held
      case isFalse hne => exact .behind hne ih

/-- A table holds its keys once when a part that does so is put under a key. -/
theorem put_once {entries : Entries} (h : PartsOnce file entries) (key : String) {part : Part}
    (hpart : part.value.Once file) : PartsOnce file (put key part entries) := by
  refine ⟨(puts_put key part entries).nodup h.1, fun entry hentry => ?_⟩
  rcases (puts_put key part entries).mem hentry with rfl | hentry
  · exact hpart
  · exact h.2 entry hentry

/-- A change of a table leaves each key standing once. -/
def ChangesOnce (file : Option String) (change : Origin → Entries → Option (Origin × Entries)) : Prop :=
  ∀ {origin entries changed}, PartsOnce file entries → change origin entries = some changed →
    PartsOnce file changed.2

/-- A change below a path of keys keeps every key once if the change at its end does. -/
theorem alter_once {change : Origin → Entries → Option (Origin × Entries)} (hchange : ChangesOnce file change)
    (dotted : Bool) (keys : List String) : ChangesOnce file (alter dotted change keys) := by
  induction keys with
  | nil => exact hchange
  | cons key keys ih =>
      intro origin entries changed h haltered
      rw [alter] at haltered
      split at haltered
      case h_1 =>
        obtain ⟨⟨o, es⟩, hinner, hsome⟩ := Option.bind_eq_some_iff.mp haltered
        obtain rfl := Option.some.inj hsome
        exact put_once h key (parts_once_iff.mpr (ih parts_once_nil hinner))
      case h_2 inner es hlookup =>
        split at haltered
        · cases haltered
        obtain ⟨⟨o, es'⟩, hinner, hsome⟩ := Option.bind_eq_some_iff.mp haltered
        obtain rfl := Option.some.inj hsome
        exact put_once h key (parts_once_iff.mpr (ih (parts_once_iff.mp (once_of_lookup h hlookup)) hinner))
      case h_3 newest older hlookup =>
        split at haltered
        · cases haltered
        obtain ⟨⟨o, es'⟩, hinner, hsome⟩ := Option.bind_eq_some_iff.mp haltered
        obtain rfl := Option.some.inj hsome
        obtain ⟨hnewest, holder⟩ := List.forall_mem_cons.mp (tables_once_iff.mp (once_of_lookup h hlookup))
        exact put_once h key (tables_once_iff.mpr (List.forall_mem_cons.mpr ⟨ih hnewest hinner, holder⟩))
      case h_4 => cases haltered

/-- Opening a table keeps every key once. -/
theorem open_table_once (key : String) : ChangesOnce file (openTable key) := by
  intro origin entries changed h hopen
  unfold openTable at hopen
  split at hopen
  case h_1 =>
    obtain rfl := Option.some.inj hopen
    exact put_once h key (parts_once_iff.mpr parts_once_nil)
  case h_2 inner es hlookup =>
    split at hopen
    · obtain rfl := Option.some.inj hopen
      have hinner : (Part.table inner es).value.Once file := once_of_lookup h hlookup
      exact put_once h key hinner
    · cases hopen
  case h_3 => cases hopen

/-- Opening an element of an array of tables keeps every key once. -/
theorem open_element_once (key : String) : ChangesOnce file (openElement key) := by
  intro origin entries changed h hopen
  unfold openElement at hopen
  split at hopen
  case h_1 =>
    obtain rfl := Option.some.inj hopen
    exact put_once h key (tables_once_iff.mpr fun _ hmem => List.mem_singleton.mp hmem ▸ parts_once_nil)
  case h_2 elements hlookup =>
    obtain rfl := Option.some.inj hopen
    have helements := tables_once_iff.mp (once_of_lookup h hlookup)
    exact put_once h key (tables_once_iff.mpr (List.forall_mem_cons.mpr ⟨parts_once_nil, helements⟩))
  case h_3 => cases hopen

/-- Adding a key with a value keeps every key once. -/
theorem add_key_once (keys : List String) {value : Value} (hvalue : value.Once file) :
    ChangesOnce file (addKey keys value) := by
  have hadd : ∀ dotted key, ChangesOnce file (addValue dotted key value) := by
    intro dotted key origin entries changed h hadded
    unfold addValue at hadded
    split at hadded
    · cases hadded
    · split at hadded
      · obtain rfl := Option.some.inj hadded
        exact put_once h key hvalue
      · cases hadded
  intro origin entries changed h hadded
  obtain ⟨⟨path, key⟩, -, haltered⟩ := Option.bind_eq_some_iff.mp hadded
  exact alter_once (hadd _ key) true path h haltered

/-! ## Values -/

/-- A number in range holds no keys. -/
theorem in_range_once {number : Int} {value : Value} (h : inRange? number = some value) : value.Once file := by
  unfold inRange? at h
  split at h
  · obtain rfl := Option.some.inj h
    exact trivial
  · cases h

/-- An integer holds no keys. -/
theorem integer_once {chars : List Char} {value : Value} (h : integer? chars = some value) : value.Once file := by
  unfold integer? at h
  split at h
  all_goals
    obtain ⟨digits, -, hrange⟩ := Option.bind_eq_some_iff.mp h
    exact in_range_once hrange

/-- A finite number holds no keys. -/
theorem number_once {number : Binary64} {value : Value}
    (h : (if number.isFinite then some (Value.number number) else none) = some value) : value.Once file := by
  split at h
  · obtain rfl := Option.some.inj h
    exact trivial
  · cases h

/-- A float holds no keys. -/
theorem float_once {chars : List Char} {value : Value} (h : float? chars = some value) : value.Once file := by
  unfold float? at h
  dsimp only at h
  split at h
  · obtain rfl := Option.some.inj h
    exact trivial
  split at h
  · obtain rfl := Option.some.inj h
    exact trivial
  -- The cases are those of the exponent, then of the places behind the point.
  split at h
  all_goals
    obtain ⟨exponent, -, h⟩ := Option.bind_eq_some_iff.mp h
    obtain ⟨whole, -, h⟩ := Option.bind_eq_some_iff.mp h
    split at h
    · split at h
      · cases h
      · exact number_once h
    · obtain ⟨places, -, h⟩ := Option.bind_eq_some_iff.mp h
      exact number_once h

/-- A date or a time holds no keys. -/
theorem moment_once {chars : List Char} {value : Value} (h : moment? chars = some value) : value.Once file := by
  unfold moment? at h
  split at h
  · obtain ⟨time, -, rfl⟩ := Option.map_eq_some_iff.mp h
    exact trivial
  split at h
  · obtain rfl := Option.some.inj h
    exact trivial
  split at h
  · obtain ⟨time, -, h⟩ := Option.bind_eq_some_iff.mp h
    split at h
    · obtain rfl := Option.some.inj h
      exact trivial
    · obtain ⟨offset, -, rfl⟩ := Option.map_eq_some_iff.mp h
      exact trivial
  · cases h

/-- A scalar holds no keys. -/
theorem scalar_once {chars : List Char} {value : Value} (h : scalar? chars = some value) : value.Once file := by
  unfold scalar? at h
  split at h
  · obtain rfl := Option.some.inj h
    exact trivial
  split at h
  · obtain rfl := Option.some.inj h
    exact trivial
  cases hinteger : integer? chars with
  | some number =>
      rw [hinteger] at h
      exact integer_once (hinteger.trans h)
  | none =>
      rw [hinteger] at h
      cases hfloat : float? chars with
      | some number =>
          rw [hfloat] at h
          exact float_once (hfloat.trans h)
      | none =>
          rw [hfloat] at h
          exact moment_once h

/-- A reader of values reads tables that hold each of their keys once. -/
def ReadsOnce (file : Option String) (item? : List Char → Option (Value × List Char)) : Prop :=
  ∀ {chars read}, item? chars = some read → read.1.Once file

/-- An atom that is read holds its keys once. -/
theorem atom_once : ReadsOnce file atom? := by
  intro chars read h
  obtain ⟨value, hvalue, rfl⟩ := Option.map_eq_some_iff.mp h
  exact scalar_once hvalue

/-- The items that are read of a list hold their keys once if each of them does. -/
theorem items_once {item? : List Char → Option (Value × List Char)} (hitem : ReadsOnce file item?) {fuel : Nat}
    {chars : List Char} {read : List Value × List Char} (h : items? item? fuel chars = some read) :
    ∀ value ∈ read.1, value.Once file := by
  induction fuel generalizing chars read with
  | zero => cases h
  | succ fuel ih =>
      rw [items?] at h
      obtain ⟨here, -, h⟩ := Option.bind_eq_some_iff.mp h
      split at h
      · obtain rfl := Option.some.inj h
        exact fun value hmem => absurd hmem List.not_mem_nil
      obtain ⟨⟨value, rest⟩, hvalue, h⟩ := Option.bind_eq_some_iff.mp h
      obtain ⟨behind, -, h⟩ := Option.bind_eq_some_iff.mp h
      split at h
      · obtain ⟨⟨values, last⟩, hvalues, h⟩ := Option.bind_eq_some_iff.mp h
        obtain rfl := Option.some.inj h
        exact List.forall_mem_cons.mpr ⟨hitem hvalue, ih hvalues⟩
      · obtain rfl := Option.some.inj h
        exact fun other hmem => List.mem_singleton.mp hmem ▸ hitem hvalue
      · cases h

/-- The members that are read of a table hold their keys once if each value does. -/
theorem members_once {item? : List Char → Option (Value × List Char)} (hitem : ReadsOnce file item?) {fuel : Nat}
    {table : Origin × Entries} (htable : PartsOnce file table.2) {chars : List Char}
    {read : Entries × List Char} (h : members? item? fuel table chars = some read) : PartsOnce file read.1 := by
  induction fuel generalizing table chars read with
  | zero => cases h
  | succ fuel ih =>
      rw [members?] at h
      obtain ⟨here, -, h⟩ := Option.bind_eq_some_iff.mp h
      split at h
      · obtain rfl := Option.some.inj h
        exact htable
      obtain ⟨⟨keys, rest⟩, -, h⟩ := Option.bind_eq_some_iff.mp h
      dsimp only at h
      split at h
      · obtain ⟨⟨value, rest⟩, hvalue, h⟩ := Option.bind_eq_some_iff.mp h
        obtain ⟨grown, hadded, h⟩ := Option.bind_eq_some_iff.mp h
        obtain ⟨behind, -, h⟩ := Option.bind_eq_some_iff.mp h
        have hgrown := add_key_once keys (hitem hvalue) htable hadded
        split at h
        · exact ih hgrown h
        · obtain rfl := Option.some.inj h
          exact hgrown
        · cases h
      · cases h

/-- A value that is read holds its keys once, however deep it goes. -/
theorem value_once (depth : Nat) : ReadsOnce file (value? depth) := by
  induction depth with
  | zero => exact nofun
  | succ depth ih =>
      intro chars read h
      unfold value? at h
      split at h
      · obtain ⟨text, -, rfl⟩ := Option.map_eq_some_iff.mp h
        exact trivial
      · obtain ⟨text, -, rfl⟩ := Option.map_eq_some_iff.mp h
        exact trivial
      · obtain ⟨items, hitems, rfl⟩ := Option.map_eq_some_iff.mp h
        exact values_once_iff.mpr (items_once ih hitems)
      · obtain ⟨members, hmembers, rfl⟩ := Option.map_eq_some_iff.mp h
        exact parts_once_iff.mpr (members_once ih parts_once_nil hmembers)
      · exact atom_once h

/-! ## Lines -/

/-- A change that is applied to a draft keeps every key once. -/
theorem apply_once {change : Origin → Entries → Option (Origin × Entries)} (hchange : ChangesOnce file change)
    {draft grown : Draft} (h : PartsOnce file draft.entries) (path : List String)
    (happly : draft.apply (alter false change path ⟨false, false⟩ draft.entries) = some grown) :
    PartsOnce file grown.entries := by
  obtain ⟨changed, hchanged, rfl⟩ := Option.map_eq_some_iff.mp happly
  exact alter_once hchange false path h hchanged

/-- One line leaves each key standing once. -/
theorem line_once {draft : Draft} (h : PartsOnce file draft.entries) {chars : List Char}
    {read : Draft × List Char} (hline : line? draft chars = some read) : PartsOnce file read.1.entries := by
  unfold line? at hline
  split at hline
  · obtain ⟨⟨keys, rest⟩, -, hline⟩ := Option.bind_eq_some_iff.mp hline
    obtain ⟨⟨path, key⟩, -, hline⟩ := Option.bind_eq_some_iff.mp hline
    dsimp only at hline
    split at hline
    · obtain ⟨grown, hgrown, hline⟩ := Option.bind_eq_some_iff.mp hline
      obtain rfl := Option.some.inj hline
      have honce := apply_once (open_element_once key) h path hgrown
      exact honce
    · cases hline
  · obtain ⟨⟨keys, rest⟩, -, hline⟩ := Option.bind_eq_some_iff.mp hline
    obtain ⟨⟨path, key⟩, -, hline⟩ := Option.bind_eq_some_iff.mp hline
    dsimp only at hline
    split at hline
    · obtain ⟨grown, hgrown, hline⟩ := Option.bind_eq_some_iff.mp hline
      obtain rfl := Option.some.inj hline
      have honce := apply_once (open_table_once key) h path hgrown
      exact honce
    · cases hline
  · obtain ⟨⟨keys, rest⟩, -, hline⟩ := Option.bind_eq_some_iff.mp hline
    dsimp only at hline
    split at hline
    · obtain ⟨⟨value, rest⟩, hvalue, hline⟩ := Option.bind_eq_some_iff.mp hline
      obtain ⟨grown, hgrown, hline⟩ := Option.bind_eq_some_iff.mp hline
      obtain rfl := Option.some.inj hline
      exact apply_once (add_key_once keys (value_once _ hvalue)) h draft.header hgrown
    · cases hline

/-- The lines of a document keep every key once. -/
theorem lines_once {fuel : Nat} {draft : Draft} (h : PartsOnce file draft.entries) {chars : List Char}
    {read : Draft} (hlines : lines? fuel draft chars = some read) : PartsOnce file read.entries := by
  induction fuel generalizing draft chars with
  | zero =>
      rw [lines?] at hlines
      split at hlines
      · exact Option.some.inj hlines ▸ h
      · cases hlines
  | succ fuel ih =>
      rw [lines?] at hlines
      split at hlines
      · exact Option.some.inj hlines ▸ h
      split at hlines
      · exact ih h hlines
      · obtain ⟨⟨grown, rest⟩, hline, hlines⟩ := Option.bind_eq_some_iff.mp hlines
        obtain ⟨behind, -, hlines⟩ := Option.bind_eq_some_iff.mp hlines
        exact ih (line_once h hline) hlines

/-- A document that is read holds each key once, in each of its tables. -/
theorem parse_once {text : String} {document : List (String × Value)} (h : parse text = some document) :
    (Value.table document).Once file := by
  obtain ⟨draft, hdraft, rfl⟩ := Option.map_eq_some_iff.mp h
  exact parts_once_iff.mpr (lines_once parts_once_nil hdraft)

end Toml

/-- The settings of a document hold each key once, in each of their tables. -/
theorem Setting.document_once {contents : String} {document : List (String × Toml.Value)}
    (h : Toml.parse contents = some document) (origin : Option String) :
    EntriesOnce (Setting.ofDocument origin document) := by
  have honce : (Setting.table origin (Setting.ofEntries origin document)).KeysOnce := Toml.parse_once h
  have hvalues : ∀ entry ∈ document, (Setting.ofValue origin entry.2).KeysOnce := by
    clear h
    induction document with
    | nil => exact fun _ hmem => absurd hmem List.not_mem_nil
    | cons entry rest ih =>
        obtain ⟨-, hentry, hrest⟩ := honce
        exact List.forall_mem_cons.mpr ⟨hentry, ih hrest⟩
  unfold Setting.ofDocument
  exact List.foldlRecOn document _ (motive := EntriesOnce) trivial fun held hheld entry hentry =>
    Setting.add_top_once hheld entry.1 (hvalues entry hentry)

end TestMeasures
