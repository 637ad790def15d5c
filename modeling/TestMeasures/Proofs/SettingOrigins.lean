import TestMeasures.Config.ImportConfig
import TestMeasures.Proofs.Outcomes

/-!
# Where settings come from

Lists and tables know the file that they were read from, which is told where a text was wanted. Nothing
else depends on it: `decode_of_document_alike` says that a document decodes to the same configuration
whatever file it was read from, or to none.
-/

namespace TestMeasures

namespace Setting

mutual

/-- A setting without the files that it was read from. -/
def bare : Setting → Setting
  | .list _ items => .list none (bareItems items)
  | .table _ entries => .table none (bareEntries entries)
  | other => other

/-- List items without the files that they were read from. -/
def bareItems : List Setting → List Setting
  | [] => []
  | item :: rest => item.bare :: bareItems rest

/-- Entries without the files that they were read from. -/
def bareEntries : List (String × Setting) → List (String × Setting)
  | [] => []
  | (key, setting) :: rest => (key, setting.bare) :: bareEntries rest

end

/-- List items lose their origins one by one. -/
theorem bare_items_eq_map (items : List Setting) : bareItems items = items.map bare := by
  induction items with
  | nil => rfl
  | cons item rest ih => rw [bareItems, ih, List.map_cons]

mutual

/-- A setting without its origin is the one that is made of the value without one. -/
theorem bare_of_value (origin : Option String) (value : Toml.Value) :
    (ofValue origin value).bare = ofValue none value := by
  cases value with
  | text | integer | number | truth | moment => rfl
  | list items => rw [ofValue, bare, bare_of_values origin items, ofValue]
  | table entries => rw [ofValue, bare, bare_of_entries origin entries, ofValue]

/-- Settings without their origin are those that are made of the values without one. -/
theorem bare_of_values (origin : Option String) (values : List Toml.Value) :
    bareItems (ofValues origin values) = ofValues none values := by
  cases values with
  | nil => rfl
  | cons value rest =>
      rw [ofValues, bareItems, bare_of_value origin value, bare_of_values origin rest, ofValues]

/-- Entries without their origin are those that are made of the entries without one. -/
theorem bare_of_entries (origin : Option String) (entries : List (String × Toml.Value)) :
    bareEntries (ofEntries origin entries) = ofEntries none entries := by
  match entries with
  | [] => rfl
  | (key, value) :: rest =>
      rw [ofEntries, bareEntries, bare_of_value origin value, bare_of_entries origin rest, ofEntries]

end

section building

variable (key : String) (target setting : Setting) (entries : List (String × Setting))

/-- Origins do not change what is found under a key. -/
theorem find_bare : find? key (bareEntries entries) = (find? key entries).map bare := by
  induction entries with
  | nil => rfl
  | cons entry rest ih =>
      unfold find? at ih ⊢
      by_cases h : entry.1 = key <;> simp_all [bareEntries]

/-- Origins do not change what is found under a key, or that nothing is. -/
theorem find_bare_or_absent :
    (find? key (bareEntries entries)).getD .absent = ((find? key entries).getD .absent).bare := by
  rw [find_bare]
  cases find? key entries <;> rfl

/-- Origins do not change where a setting is put. -/
theorem put_bare : bareEntries (put key setting entries) = put key setting.bare (bareEntries entries) := by
  induction entries with
  | nil => rfl
  | cons entry rest ih => by_cases h : entry.1 = key <;> simp_all [put, bareEntries]

/-- Origins do not change the entries of a setting taken as a table. -/
theorem as_table_bare : target.bare.asTable = (none, bareEntries target.asTable.2) := by
  cases target <;> rfl

/-- Origins do not change the items of a setting taken as a list. -/
theorem as_list_bare : target.bare.asList = (none, bareItems target.asList.2) := by
  cases target <;> rfl

mutual

/-- Origins do not change what lies over a setting. -/
theorem overlay_bare (target value : Setting) :
    (target.overlay value).bare = target.bare.overlay value.bare := by
  cases value with
  | table origin entries =>
      rw [overlay, bare, bare, overlay, as_table_bare, overlay_entries_bare _ entries]
  | absent | truth | integer | number | text | list => rfl

/-- Origins do not change what lies over entries. -/
theorem overlay_entries_bare (target entries : List (String × Setting)) :
    bareEntries (overlayEntries target entries) = overlayEntries (bareEntries target) (bareEntries entries) := by
  match entries with
  | [] => rfl
  | (key, value) :: rest =>
      rw [overlayEntries, bareEntries, overlayEntries, overlay_entries_bare _ rest, put_bare,
        overlay_bare _ value, find_bare_or_absent]

end

/-- Origins do not change how items are made to reach a place. -/
theorem reach_bare (place : Int) (items : List Setting) :
    KeyExpression.reach place (bareItems items) =
      (bareItems (KeyExpression.reach place items).1, (KeyExpression.reach place items).2) := by
  have habsent : bare .absent = .absent := rfl
  simp only [KeyExpression.reach, bare_items_eq_map, List.length_map]
  split
  · simp [habsent]
  · split <;> simp [habsent]

/-- Origins do not change what is assigned. -/
theorem assign_bare (value : Setting) (steps : List KeyStep) (target : Setting) :
    (KeyExpression.assign value steps target).bare = KeyExpression.assign value.bare steps target.bare := by
  induction steps generalizing target with
  | nil => exact overlay_bare target value
  | cons step rest ih =>
      cases step with
      | key name =>
          simp only [KeyExpression.assign, bare, as_table_bare, put_bare, ih, find_bare_or_absent]
      | index place =>
          have hitem : ∀ (items : List Setting) (i : Nat),
              (items.map bare).getD i .absent = (items.getD i .absent).bare := by
            intro items i
            rw [List.getD_eq_getElem?_getD, List.getD_eq_getElem?_getD, List.getElem?_map]
            cases items[i]? <;> rfl
          simp only [KeyExpression.assign, bare, as_list_bare, reach_bare]
          simp only [bare_items_eq_map, List.map_set, ih, hitem]

/-- Origins do not change what is added at the top. -/
theorem add_top_bare : bareEntries (addTop entries key setting) = addTop (bareEntries entries) key setting.bare := by
  simp only [addTop, put_bare, assign_bare, find_bare_or_absent]

/-- The settings of a document, but for the file that it was read from. -/
theorem of_document_bare (origin : Option String) (document : List (String × Toml.Value)) :
    bareEntries (ofDocument origin document) = ofDocument none document := by
  have hfold : ∀ entries entries', bareEntries entries = entries' →
      bareEntries (document.foldl (fun held entry => addTop held entry.1 (ofValue origin entry.2)) entries) =
        document.foldl (fun held entry => addTop held entry.1 (ofValue none entry.2)) entries' := by
    induction document with
    | nil => exact fun _ _ h => h
    | cons entry rest ih =>
        intro entries entries' h
        rw [List.foldl_cons, List.foldl_cons]
        refine ih _ _ ?_
        rw [add_top_bare, h, bare_of_value]
  exact hfold [] [] rfl

end building

section reading

/-- Origins do not change the text of a setting. -/
theorem as_text_alike (setting : Setting) : setting.asText.toOption = setting.bare.asText.toOption := by
  cases setting <;> rfl

/-- Origins do not change the text of a setting that may be absent. -/
theorem as_text_or_absent_alike (setting : Setting) :
    setting.asText?.toOption = setting.bare.asText?.toOption := by
  cases setting <;> rfl

/-- Origins do not change the texts of list items. -/
theorem texts_from_alike (place : Nat) (items : List Setting) :
    (textsFrom place items).toOption = (textsFrom place (bareItems items)).toOption := by
  induction items generalizing place with
  | nil => rfl
  | cons item rest ih =>
      rw [textsFrom, bareItems, textsFrom]
      rcases alike_cases (as_text_alike item) with ⟨fault, fault', h, h'⟩ | ⟨text, h, h'⟩
      · simp only [h, h']
        rfl
      · simp only [h, h']
        exact alike_map (ih (place + 1)) _

/-- Origins do not change the texts of a setting. -/
theorem as_texts_alike (setting : Setting) : setting.asTexts.toOption = setting.bare.asTexts.toOption := by
  cases setting with
  | list origin items => exact texts_from_alike 0 items
  | absent | truth | integer | number | text | table => rfl

end reading

end Setting

open Setting (bareItems bareEntries)

/-- What the fields of a section read does not depend on where a setting comes from. -/
def Fields.Alike {σ : Type} (fields : Fields σ) : Prop :=
  ∀ field ∈ fields, ∀ (setting : Setting) (held : σ),
    (field.2 setting held).toOption = (field.2 setting.bare held).toOption

section decoding

variable {σ : Type} {fields : Fields σ}

/-- Origins do not change how the entries of a section are decoded. -/
theorem decode_entries_alike (h : fields.Alike) (above : String) (entries : List (String × Setting))
    (decoded : Decoded σ) :
    (decodeEntries fields above entries decoded).toOption =
      (decodeEntries fields above (bareEntries entries) decoded).toOption := by
  induction entries generalizing decoded with
  | nil => rfl
  | cons entry rest ih =>
      obtain ⟨key, setting⟩ := entry
      rw [decodeEntries, bareEntries, decodeEntries]
      cases hfield : fields.find? fun field => field.1 == key with
      | none => exact ih _
      | some field =>
          have hread := h field (List.mem_of_find?_eq_some hfield) setting decoded.value
          simp only [Option.map_some]
          rcases alike_cases hread with ⟨fault, fault', h, h'⟩ | ⟨value, h, h'⟩
          · simp only [h, h']
            rfl
          · simp only [h, h']
            exact ih _

/-- Origins do not change how the items of a section are decoded. -/
theorem decode_items_alike (h : fields.Alike) (place : Nat) (items : List Setting) (held : σ) :
    (decodeItems place fields items held).toOption =
      (decodeItems place fields (bareItems items) held).toOption := by
  induction fields generalizing place items held with
  | nil => rfl
  | cons field fields ih =>
      cases items with
      | nil => rfl
      | cons setting rest =>
          obtain ⟨hfield, hfields⟩ := List.forall_mem_cons.mp h
          rw [decodeItems, bareItems, decodeItems]
          rcases alike_cases (hfield setting held) with ⟨fault, fault', h, h'⟩ | ⟨value, h, h'⟩
          · simp only [h, h']
            rfl
          · simp only [h, h']
            exact ih hfields _ _ _

/-- Origins do not change how a section is decoded. -/
theorem decode_section_alike (h : fields.Alike) (initial : σ) (expected above : String) (setting : Setting) :
    (decodeSection fields initial expected above setting).toOption =
      (decodeSection fields initial expected above setting.bare).toOption := by
  cases setting with
  | table origin entries => exact decode_entries_alike h above entries _
  | list origin items => exact alike_map (decode_items_alike h 0 items initial) _
  | absent | truth | integer | number | text => rfl

/-- The fields of the import section read the same whatever the origins. -/
theorem ImportSection.fields_alike : ImportSection.fields.Alike := by
  intro field hfield setting held
  obtain rfl := List.mem_singleton.mp hfield
  exact alike_map setting.as_text_or_absent_alike _

/-- The fields of a language read the same whatever the origins. -/
theorem LanguageSection.fields_alike : LanguageSection.fields.Alike := by
  intro field hfield setting held
  simp only [fields, List.mem_cons, List.not_mem_nil, or_false] at hfield
  rcases hfield with rfl | rfl | rfl | rfl
  · exact alike_map setting.as_text_or_absent_alike _
  all_goals exact alike_map setting.as_texts_alike _

/-- Origins do not change how the sections of languages are decoded. -/
theorem decode_languages_alike (entries : List (String × Setting)) :
    (decodeLanguages entries).toOption = (decodeLanguages (bareEntries entries)).toOption := by
  induction entries with
  | nil => rfl
  | cons entry rest ih =>
      obtain ⟨key, setting⟩ := entry
      rw [decodeLanguages, bareEntries, decodeLanguages]
      rcases alike_cases (decode_section_alike LanguageSection.fields_alike {} "struct LanguageDeserialize"
        ("language." ++ key ++ ".") setting) with ⟨fault, fault', h, h'⟩ | ⟨decoded, h, h'⟩
      · simp only [h, h']
        rfl
      · simp only [h, h']
        exact alike_map ih _

/-- Origins do not change how an entry at the top is decoded. -/
theorem decode_top_alike (key : String) (setting : Setting) (decoded : Decoded Sections) :
    (decodeTop key setting decoded).toOption = (decodeTop key setting.bare decoded).toOption := by
  unfold decodeTop
  split
  · exact alike_map (decode_section_alike ImportSection.fields_alike ..) _
  · split
    · cases setting with
      | table origin entries => exact alike_map (decode_languages_alike entries) _
      | absent | truth | integer | number | text | list => rfl
    · rfl

/-- Origins do not change how settings are decoded. -/
theorem decode_alike (entries : List (String × Setting)) :
    (decode entries).toOption = (decode (bareEntries entries)).toOption := by
  have htops : ∀ decoded, (decodeTops entries decoded).toOption =
      (decodeTops (bareEntries entries) decoded).toOption := by
    induction entries with
    | nil => exact fun _ => rfl
    | cons entry rest ih =>
        intro decoded
        obtain ⟨key, setting⟩ := entry
        rw [decodeTops, bareEntries, decodeTops]
        rcases alike_cases (decode_top_alike key setting decoded) with ⟨fault, fault', h, h'⟩ | ⟨after, h, h'⟩
        · simp only [h, h']
          rfl
        · simp only [h, h']
          exact ih after
  exact htops _

/-- What a document says does not depend on the file that it was read from. -/
theorem decode_of_document_alike (origin origin' : Option String) (document : List (String × Toml.Value)) :
    (decode (Setting.ofDocument origin document)).toOption =
      (decode (Setting.ofDocument origin' document)).toOption := by
  rw [decode_alike, decode_alike (Setting.ofDocument origin' document), Setting.of_document_bare,
    Setting.of_document_bare]

end decoding

end TestMeasures
