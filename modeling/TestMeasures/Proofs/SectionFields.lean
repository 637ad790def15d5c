import Mathlib.Data.List.Nodup
import TestMeasures.Proofs.SettingOrigins

/-!
# Sections and their fields

A section is read entry by entry: each field takes what stands under its own key, and keys without a field are
told. A list stands for the table of its items under the keys of the fields in order.
`Fields.HaveShape.decode_section` is about which sections are read at all, `decode_section_unknown` about what is
told, and `Fields.Reads.part_section` about what a field holds in the end.
-/

namespace TestMeasures

/-! ## Entries of a section -/

namespace Setting

/-- Whether a setting is a table or a list, which stands for one. -/
def isSection : Setting → Bool
  | .list _ _ | .table _ _ => true
  | _ => false

/-- The entries of a section with these keys; the items of a list stand under the keys in order. -/
def entriesUnder (keys : List String) : Setting → List (String × Setting)
  | .table _ entries => entries
  | .list _ items => keys.zip items
  | _ => []

/-- Distinct keys stay distinct beside items. -/
theorem zip_keys_nodup {keys : List String} (h : keys.Nodup) (items : List Setting) :
    ((keys.zip items).map Prod.fst).Nodup := by
  induction keys generalizing items with
  | nil => exact List.nodup_nil
  | cons key keys ih =>
      cases items with
      | nil => exact List.nodup_nil
      | cons item rest =>
          obtain ⟨hkey, hkeys⟩ := List.nodup_cons.mp h
          refine List.nodup_cons.mpr ⟨fun hmem => ?_, ih hkeys rest⟩
          obtain ⟨entry, hentry, heq⟩ := List.mem_map.mp hmem
          exact hkey ((show entry.1 = key from heq) ▸ (List.of_mem_zip hentry).1)

/-- The setting under a key, if there is one, is that of an entry. -/
theorem mem_of_find {key : String} {entries : List (String × Setting)} {setting : Setting}
    (h : find? key entries = some setting) : (key, setting) ∈ entries := by
  obtain ⟨entry, hentry, rfl⟩ := Option.map_eq_some_iff.mp h
  obtain rfl : entry.1 = key := by simpa using List.find?_some hentry
  exact List.mem_of_find?_eq_some hentry

/-- Nothing stands under a key exactly when the key is none of the keys. -/
theorem find_eq_none_iff {key : String} {entries : List (String × Setting)} :
    find? key entries = none ↔ key ∉ entries.map Prod.fst := by
  simp only [find?, Option.map_eq_none_iff, List.find?_eq_none, List.mem_map, beq_iff_eq, not_exists, not_and]

/-- What stands under a key is the first entry of it. -/
theorem find_cons (key : String) (entry : String × Setting) (rest : List (String × Setting)) :
    find? key (entry :: rest) = if entry.1 = key then some entry.2 else find? key rest := by
  by_cases h : entry.1 = key <;> simp [find?, h]

/-- A part that the entry of one key alone decides. What it is in the end was read under that key, or it is what
it was before; this goes from the entries behind one to those from it on. -/
theorem part_cons {α : Type} {key : String} (Read : Setting → α → Prop) {entry : String × Setting}
    {rest : List (String × Setting)} {before here after : α} (hentry : entry.1 ∉ rest.map Prod.fst)
    (hown : entry.1 = key → Read entry.2 here) (hothers : entry.1 ≠ key → here = before)
    (hrest : (∀ setting, find? key rest = some setting → Read setting after) ∧
      (find? key rest = none → after = here)) :
    (∀ setting, find? key (entry :: rest) = some setting → Read setting after) ∧
      (find? key (entry :: rest) = none → after = before) := by
  obtain ⟨hfound, hkept⟩ := hrest
  rw [find_cons]
  by_cases hkey : entry.1 = key
  · -- The key is not met again, so the part keeps what was read here.
    rw [if_pos hkey, hkept (find_eq_none_iff.mpr (hkey ▸ hentry))]
    refine ⟨fun setting hfind => ?_, fun hfind => absurd hfind (Option.some_ne_none entry.2)⟩
    obtain rfl := Option.some.inj hfind
    exact hown hkey
  · rw [if_neg hkey]
    exact ⟨hfound, fun hfind => (hkept hfind).trans (hothers hkey)⟩

end Setting

/-- The keys of fields in order. -/
def Fields.keys {σ : Type} (fields : Fields σ) : List String :=
  fields.map Prod.fst

/-- The full names of the keys that are not known, given what stands before them. -/
def unknownNames (known : List String) (above : String) (entries : List (String × Setting)) : List String :=
  ((entries.map Prod.fst).filter (· ∉ known)).map (above ++ ·)

section decoding

variable {σ : Type} {fields : Fields σ} {above : String}

/-- No field has a key that is none of the keys of the fields. -/
theorem Fields.find_eq_none_iff {key : String} :
    (fields.find? fun field => field.1 == key) = none ↔ key ∉ fields.keys := by
  simp only [keys, List.find?_eq_none, List.mem_map, beq_iff_eq, not_exists, not_and]

/-- A field that is found for a key is one of the fields, and it has the key. -/
theorem Fields.find_eq_some {key : String} {field : String × Field σ}
    (h : (fields.find? fun field => field.1 == key) = some field) : field ∈ fields ∧ field.1 = key :=
  ⟨List.mem_of_find?_eq_some h, by simpa using List.find?_some h⟩

/-- One entry of a section: it is told, refused, or read by the field of its key. -/
theorem decode_entries_cons (fields : Fields σ) (above : String) (entry : String × Setting)
    (rest : List (String × Setting)) (decoded : Decoded σ) :
    (entry.1 ∉ fields.keys ∧ decodeEntries fields above (entry :: rest) decoded =
      decodeEntries fields above rest { decoded with unknown := decoded.unknown ++ [above ++ entry.1] }) ∨
    ∃ field ∈ fields, field.1 = entry.1 ∧
      (fields.find? fun field => field.1 == entry.1) = some field ∧
      decodeEntries fields above (entry :: rest) decoded =
        match field.2 entry.2 decoded.value with
        | .error fault => .error (fault.behind (.key entry.1))
        | .ok value => decodeEntries fields above rest { decoded with value := value } := by
  obtain ⟨key, setting⟩ := entry
  rw [decodeEntries]
  cases hfind : fields.find? fun field => field.1 == key with
  | none => exact .inl ⟨Fields.find_eq_none_iff.mp hfind, rfl⟩
  | some field =>
      obtain ⟨hmem, hkey⟩ := Fields.find_eq_some hfind
      exact .inr ⟨field, hmem, hkey, rfl, rfl⟩

/-- What is told of a section's entries. -/
theorem decode_entries_unknown {entries : List (String × Setting)} {decoded result : Decoded σ}
    (h : decodeEntries fields above entries decoded = .ok result) :
    result.unknown = decoded.unknown ++ unknownNames fields.keys above entries := by
  induction entries generalizing decoded with
  | nil =>
      obtain rfl := Except.ok.inj h
      exact (List.append_nil _).symm
  | cons entry rest ih =>
      rcases decode_entries_cons fields above entry rest decoded with
        ⟨hkey, heq⟩ | ⟨field, hmem, hkey, -, heq⟩
      · rw [heq] at h
        rw [ih h, List.append_assoc]
        simp [unknownNames, hkey]
      · have hknown : entry.1 ∈ fields.keys := hkey ▸ List.mem_map_of_mem hmem
        rw [heq] at h
        cases hread : field.2 entry.2 decoded.value with
        | error fault => simp [hread] at h
        | ok value =>
            simp only [hread] at h
            rw [ih h]
            simp [unknownNames, hknown]

/-! ## Lists that stand for tables -/

/-- Items that are read as the fields from a place on are read as entries under the keys of these fields. -/
theorem decode_items_alike_entries {tail : Fields σ}
    (h : ∀ field ∈ tail, (fields.find? fun other => other.1 == field.1) = some field) (place : Nat)
    (items : List Setting) (value : σ) (told : List String) :
    ((decodeItems place tail items value).map (Decoded.mk · told)).toOption =
      (decodeEntries fields above (tail.keys.zip items) ⟨value, told⟩).toOption := by
  induction tail generalizing place items value with
  | nil => rfl
  | cons field tail ih =>
      cases items with
      | nil => rfl
      | cons setting rest =>
          obtain ⟨hfield, htail⟩ := List.forall_mem_cons.mp h
          have hzip : (Fields.keys (field :: tail)).zip (setting :: rest) =
              (field.1, setting) :: (Fields.keys tail).zip rest := rfl
          rw [hzip, decodeItems, decodeEntries, hfield]
          simp only [Option.map_some]
          cases hread : field.2 setting value with
          | error fault => rfl
          | ok value => exact ih htail (place + 1) rest value

/-- Among distinct keys, every field is found under its own. -/
theorem Fields.find_of_mem (h : fields.keys.Nodup) :
    ∀ field ∈ fields, (fields.find? fun other => other.1 == field.1) = some field := by
  induction fields with
  | nil => exact fun field hmem => absurd hmem List.not_mem_nil
  | cons head rest ih =>
      obtain ⟨hhead, hrest⟩ := List.nodup_cons.mp h
      intro field hmem
      rcases List.mem_cons.mp hmem with rfl | hmem
      · simp
      · have hne : head.1 ≠ field.1 := fun heq => hhead (heq ▸ List.mem_map_of_mem hmem)
        rw [List.find?_cons_of_neg (by simpa using hne)]
        exact ih hrest field hmem

/-- A section is read as its entries are. -/
theorem decode_section_alike_entries (hkeys : fields.keys.Nodup) {setting : Setting}
    (h : setting.isSection = true) (initial : σ) (expected above : String) :
    (decodeSection fields initial expected above setting).toOption =
      (decodeEntries fields above (setting.entriesUnder fields.keys) ⟨initial, []⟩).toOption := by
  cases setting with
  | table origin entries => rfl
  | list origin items =>
      exact decode_items_alike_entries (Fields.find_of_mem hkeys) 0 items initial []
  | absent | truth | integer | number | text => cases h

/-- A section that is read is one, and its entries are read to the same end. -/
theorem entries_of_decode_section (hkeys : fields.keys.Nodup) {setting : Setting} {initial : σ}
    {expected : String} {result : Decoded σ}
    (h : decodeSection fields initial expected above setting = .ok result) :
    setting.isSection = true ∧
      decodeEntries fields above (setting.entriesUnder fields.keys) ⟨initial, []⟩ = .ok result := by
  have hsection : setting.isSection = true := by
    cases setting <;> first | rfl | cases h
  have halike := decode_section_alike_entries hkeys hsection initial expected above
  rw [h] at halike
  rcases alike_cases halike with ⟨_, _, hfault, -⟩ | ⟨value, hvalue, heq⟩
  · cases hfault
  · exact ⟨hsection, Except.ok.inj hvalue ▸ heq⟩

/-- What is told of a section. -/
theorem decode_section_unknown (hkeys : fields.keys.Nodup) {setting : Setting} {initial : σ}
    {expected : String} {result : Decoded σ}
    (h : decodeSection fields initial expected above setting = .ok result) :
    result.unknown = unknownNames fields.keys above (setting.entriesUnder fields.keys) :=
  (decode_entries_unknown (entries_of_decode_section hkeys h).2).trans (List.nil_append _)

/-! ## Which sections are read -/

/-- The keys of a section and what may stand under them. -/
abbrev SectionShape := List (String × (Setting → Bool))

namespace SectionShape

/-- The keys that a section knows. -/
def keys (shape : SectionShape) : List String :=
  shape.map Prod.fst

/-- Whether an entry may stand in a section; anything may stand under an unknown key. -/
def allows (shape : SectionShape) (entry : String × Setting) : Bool :=
  match shape.find? fun part => part.1 == entry.1 with
  | some part => part.2 entry.2
  | none => true

/-- Whether a setting is a section, and what stands under its known keys may stand there. -/
def fits (shape : SectionShape) (setting : Setting) : Bool :=
  setting.isSection && (setting.entriesUnder shape.keys).all shape.allows

end SectionShape

/-- Fields read what a shape allows under their keys, and nothing else, whatever is held before. -/
def Fields.HaveShape (fields : Fields σ) (shape : SectionShape) : Prop :=
  List.Forall₂ (fun field part => field.1 = part.1 ∧
    ∀ setting held, (field.2 setting held).isOk = part.2 setting) fields shape

namespace Fields.HaveShape

variable {shape : SectionShape}

/-- Fields of a shape have its keys. -/
theorem keys_eq (h : fields.HaveShape shape) : fields.keys = shape.keys := by
  induction h with
  | nil => rfl
  | cons hpart _ ih => exact congrArg₂ List.cons hpart.1 ih

/-- A shape speaks of a key as the field of the key reads. -/
theorem allows_of_find (h : fields.HaveShape shape) {entry : String × Setting} {field : String × Field σ}
    (hfind : (fields.find? fun field => field.1 == entry.1) = some field) (held : σ) :
    shape.allows entry = (field.2 entry.2 held).isOk := by
  unfold SectionShape.allows
  induction h with
  | nil => cases hfind
  | @cons head part fields shape hpart _ ih =>
      by_cases hkey : head.1 = entry.1
      · rw [List.find?_cons_of_pos (by simpa using hkey)] at hfind
        obtain rfl := Option.some.inj hfind
        rw [List.find?_cons_of_pos (by simpa using hpart.1 ▸ hkey)]
        exact (hpart.2 entry.2 held).symm
      · rw [List.find?_cons_of_neg (by simpa using hkey)] at hfind
        rw [List.find?_cons_of_neg (by simpa using hpart.1 ▸ hkey)]
        exact ih hfind

/-- A shape allows anything under a key that is not its own. -/
theorem allows_unknown (h : fields.HaveShape shape) {entry : String × Setting} (hkey : entry.1 ∉ fields.keys) :
    shape.allows entry = true := by
  have hnone : (shape.find? fun part => part.1 == entry.1) = none := by
    rw [List.find?_eq_none]
    intro part hpart heq
    exact hkey (h.keys_eq ▸ (beq_iff_eq.mp heq) ▸ List.mem_map_of_mem hpart)
  simp only [SectionShape.allows, hnone]

/-- Entries are read exactly if they may all stand in the section. -/
theorem decode_entries (h : fields.HaveShape shape) (entries : List (String × Setting)) (decoded : Decoded σ) :
    (decodeEntries fields above entries decoded).isOk = entries.all shape.allows := by
  induction entries generalizing decoded with
  | nil => rfl
  | cons entry rest ih =>
      rw [List.all_cons]
      rcases decode_entries_cons fields above entry rest decoded with
        ⟨hkey, heq⟩ | ⟨field, -, -, hfind, heq⟩
      · rw [heq, ih, h.allows_unknown hkey, Bool.true_and]
      · rw [heq, h.allows_of_find hfind decoded.value]
        cases field.2 entry.2 decoded.value with
        | error fault => rfl
        | ok value => exact ih _

/-- A section is read exactly if it has the shape of the fields. -/
theorem decode_section (h : fields.HaveShape shape) (hkeys : fields.keys.Nodup) (setting : Setting)
    (initial : σ) (expected above : String) :
    (decodeSection fields initial expected above setting).isOk = shape.fits setting := by
  unfold SectionShape.fits
  cases hsection : setting.isSection with
  | true =>
      rw [is_ok_of_alike (decode_section_alike_entries hkeys hsection initial expected above), h.decode_entries,
        h.keys_eq, Bool.true_and]
  | false => cases setting <;> first | rfl | cases hsection

end Fields.HaveShape

/-! ## What a field holds -/

/-- One of the fields reads what stands under a key, and a part of the section holds what it read: the other
fields leave that part alone. -/
structure Fields.Reads {α : Type} (fields : Fields σ) (key : String)
    (read : Setting → Except SettingFault α) (part : σ → α) : Prop where
  known : key ∈ fields.keys
  own : ∀ field ∈ fields, field.1 = key → ∀ setting held value, field.2 setting held = .ok value →
    read setting = .ok (part value)
  others : ∀ field ∈ fields, field.1 ≠ key → ∀ setting held value, field.2 setting held = .ok value →
    part value = part held

namespace Fields.Reads

variable {α : Type} {key : String} {read : Setting → Except SettingFault α} {part : σ → α}

/-- What a part holds behind a section's entries: what was read under its key, or what it held before. -/
theorem part_entries (h : fields.Reads key read part) {entries : List (String × Setting)}
    (hkeys : (entries.map Prod.fst).Nodup) {decoded result : Decoded σ}
    (hdecode : decodeEntries fields above entries decoded = .ok result) :
    (∀ setting, Setting.find? key entries = some setting → read setting = .ok (part result.value)) ∧
      (Setting.find? key entries = none → part result.value = part decoded.value) := by
  induction entries generalizing decoded with
  | nil =>
      obtain rfl := Except.ok.inj hdecode
      exact ⟨nofun, fun _ => rfl⟩
  | cons entry rest ih =>
      obtain ⟨hentry, hrest⟩ := List.nodup_cons.mp hkeys
      rcases decode_entries_cons fields above entry rest decoded with
        ⟨hunknown, heq⟩ | ⟨field, hmem, hfield, -, heq⟩
      · rw [heq] at hdecode
        have hne : entry.1 ≠ key := fun hentry => hunknown (hentry ▸ h.known)
        have hbehind := ih hrest hdecode
        exact Setting.part_cons (fun setting value => read setting = .ok value) hentry
          (fun hkey => absurd hkey hne) (fun _ => rfl) hbehind
      · rw [heq] at hdecode
        cases hread : field.2 entry.2 decoded.value with
        | error fault => simp [hread] at hdecode
        | ok value =>
            simp only [hread] at hdecode
            exact Setting.part_cons (fun setting value => read setting = .ok value) hentry
              (fun hkey => h.own field hmem (hfield.trans hkey) _ _ _ hread)
              (fun hkey => h.others field hmem (hfield ▸ hkey) _ _ _ hread) (ih hrest hdecode)

/-- What a part holds behind a section. -/
theorem part_section (h : fields.Reads key read part) (hfields : fields.keys.Nodup) {setting : Setting}
    (hkeys : ((setting.entriesUnder fields.keys).map Prod.fst).Nodup) {initial : σ} {expected : String}
    {result : Decoded σ} (hdecode : decodeSection fields initial expected above setting = .ok result) :
    (∀ found, Setting.find? key (setting.entriesUnder fields.keys) = some found →
        read found = .ok (part result.value)) ∧
      (Setting.find? key (setting.entriesUnder fields.keys) = none → part result.value = part initial) :=
  h.part_entries hkeys (entries_of_decode_section hfields hdecode).2

end Fields.Reads

end decoding

end TestMeasures
