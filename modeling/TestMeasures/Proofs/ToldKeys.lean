import TestMeasures.Config.ImportConfig
import TestMeasures.Proofs.SettingShape

/-!
# Told keys

`UnknownKey` is a key that means nothing, at the top, in the import section or in the section of a language.
Loading settings of the right shape tells exactly these keys (`ImportConfig.mem_unknown_iff`), in order and all
in one event.
-/

namespace TestMeasures

open Setting (rightShape unknownUnder)

/-- A key of settings that means nothing, by its full name. -/
inductive UnknownKey (settings : List (String × Setting)) : String → Prop where
  /-- A key at the top. -/
  | top {key : String} {setting : Setting} (hmem : (key, setting) ∈ settings)
      (himport : key ≠ "import") (hlanguage : key ≠ "language") : UnknownKey settings key
  /-- A key of the import section. -/
  | importing {source : Setting} {key : String} {setting : Setting} (hsource : ("import", source) ∈ settings)
      (hmem : (key, setting) ∈ source.entriesUnder ImportSection.shape.keys)
      (hkey : key ∉ ImportSection.shape.keys) : UnknownKey settings ("import." ++ key)
  /-- A key of a language's section. -/
  | language {origin : Option String} {sections : List (String × Setting)} {name : String} {source : Setting}
      {key : String} {setting : Setting} (hsections : ("language", .table origin sections) ∈ settings)
      (hsource : (name, source) ∈ sections)
      (hmem : (key, setting) ∈ source.entriesUnder LanguageSection.shape.keys)
      (hkey : key ∉ LanguageSection.shape.keys) : UnknownKey settings ("language." ++ name ++ "." ++ key)

/-- The unknown names of entries are the full names of the keys that are not known. -/
theorem mem_unknown_names_iff {known : List String} {above text : String} {entries : List (String × Setting)} :
    text ∈ unknownNames known above entries ↔
      ∃ entry ∈ entries, entry.1 ∉ known ∧ above ++ entry.1 = text := by
  simp only [unknownNames, List.mem_map, List.mem_filter, decide_eq_true_eq]
  constructor
  · rintro ⟨_, ⟨⟨entry, hentry, rfl⟩, hkey⟩, rfl⟩
    exact ⟨entry, hentry, hkey, rfl⟩
  · rintro ⟨entry, hentry, hkey, rfl⟩
    exact ⟨entry.1, ⟨⟨entry, hentry, rfl⟩, hkey⟩, rfl⟩

/-- The unknown keys under the entries at the top are those of the settings. -/
theorem mem_unknown_under_iff {settings : List (String × Setting)} {text : String} :
    text ∈ settings.flatMap unknownUnder ↔ UnknownKey settings text := by
  rw [List.mem_flatMap]
  constructor
  · rintro ⟨⟨key, setting⟩, hmem, htext⟩
    unfold unknownUnder at htext
    split at htext
    case isTrue hkey =>
      obtain rfl : key = "import" := hkey
      obtain ⟨entry, hentry, hkey, rfl⟩ := mem_unknown_names_iff.mp htext
      exact .importing hmem hentry hkey
    case isFalse himport =>
      split at htext
      case isTrue hkey =>
        obtain rfl : key = "language" := hkey
        cases setting with
        | table origin sections =>
          obtain ⟨source, hsource, htext⟩ := List.mem_flatMap.mp htext
          obtain ⟨entry, hentry, hkey, rfl⟩ := mem_unknown_names_iff.mp htext
          exact .language hmem hsource hentry hkey
        | absent | truth | integer | number | text | list => cases htext
      case isFalse hlanguage =>
        obtain rfl := List.mem_singleton.mp htext
        exact .top hmem himport hlanguage
  · rintro (⟨hmem, himport, hlanguage⟩ | ⟨hsource, hmem, hkey⟩ | ⟨hsections, hsource, hmem, hkey⟩)
    · refine ⟨_, hmem, ?_⟩
      simp [unknownUnder, himport, hlanguage]
    · refine ⟨_, hsource, ?_⟩
      rw [unknownUnder, if_pos rfl]
      exact mem_unknown_names_iff.mpr ⟨_, hmem, hkey, rfl⟩
    · refine ⟨_, hsections, ?_⟩
      rw [unknownUnder, if_neg (show "language" ≠ "import" by decide), if_pos rfl]
      exact List.mem_flatMap.mpr ⟨_, hsource, mem_unknown_names_iff.mpr ⟨_, hmem, hkey, rfl⟩⟩

namespace ImportConfig

/-- Inserting a text adds it and nothing else. -/
theorem mem_insert_text {text other : String} {texts : List String} :
    other ∈ insertText text texts ↔ other = text ∨ other ∈ texts := by
  induction texts with
  | nil => simp [insertText]
  | cons head rest ih =>
      unfold insertText
      split
      case h_1 => exact List.mem_cons
      case h_2 heq =>
        obtain rfl : text = head := Std.LawfulEqCmp.compare_eq_iff_eq.mp heq
        simp
      case h_3 =>
        rw [List.mem_cons, ih, List.mem_cons, or_left_comm]

/-- Inserting a text keeps texts in increasing order. -/
theorem insert_text_increases {texts : List String} (h : texts.Pairwise (· < ·)) (text : String) :
    (insertText text texts).Pairwise (· < ·) := by
  induction texts with
  | nil => exact List.pairwise_singleton _ _
  | cons head rest ih =>
      obtain ⟨hhead, hrest⟩ := List.pairwise_cons.mp h
      unfold insertText
      split
      case h_1 hlt =>
        have hlt : text < head := compareOfLessAndEq_eq_lt.mp hlt
        refine List.pairwise_cons.mpr ⟨fun other hother => ?_, h⟩
        rcases List.mem_cons.mp hother with rfl | hother
        · exact hlt
        · exact String.lt_trans hlt (hhead other hother)
      case h_2 => exact h
      case h_3 hgt =>
        rw [Std.OrientedOrd.eq_swap, Ordering.swap_eq_gt] at hgt
        have hgt : head < text := compareOfLessAndEq_eq_lt.mp hgt
        refine List.pairwise_cons.mpr ⟨fun other hother => ?_, ih hrest⟩
        rcases mem_insert_text.mp hother with rfl | hother
        · exact hgt
        · exact hhead other hother

/-- Telling each text once keeps the texts. -/
theorem mem_distinct {text : String} {texts : List String} : text ∈ distinct texts ↔ text ∈ texts := by
  induction texts with
  | nil => exact Iff.rfl
  | cons head rest ih =>
      show text ∈ insertText head (distinct rest) ↔ _
      rw [mem_insert_text, ih, List.mem_cons]

/-- Texts that are told once stand in increasing order. -/
theorem distinct_increases (texts : List String) : (distinct texts).Pairwise (· < ·) := by
  induction texts with
  | nil => exact .nil
  | cons head rest ih => exact insert_text_increases ih head

section loading

variable {file : Path} {settings : List (String × Setting)}

/-- Settings that can be decoded are loaded with the distinct unknown keys. -/
theorem of_settings_eq {decoded : Decoded Sections} (h : decode settings = .ok decoded) :
    ofSettings file settings =
      ⟨(ofSections file decoded.value).mapError (⟨file, ·⟩), distinct decoded.unknown⟩ := by
  rw [ofSettings, h]

/-- Settings of the right shape can be decoded. -/
theorem exists_decode (h : rightShape settings = true) : ∃ decoded, decode settings = .ok decoded :=
  is_ok_iff.mp ((decode_is_ok settings).trans h)

/-- Settings of the right shape are loaded with exactly their unknown keys. -/
theorem mem_unknown_iff (h : rightShape settings = true) {text : String} :
    text ∈ (ofSettings file settings).unknown ↔ UnknownKey settings text := by
  obtain ⟨decoded, hdecode⟩ := exists_decode h
  rw [of_settings_eq hdecode, mem_distinct, decode_unknown hdecode, mem_unknown_under_iff]

/-- The unknown keys that are loaded stand in increasing order. -/
theorem unknown_increases (h : rightShape settings = true) :
    (ofSettings file settings).unknown.Pairwise (· < ·) := by
  obtain ⟨decoded, hdecode⟩ := exists_decode h
  rw [of_settings_eq hdecode]
  exact distinct_increases decoded.unknown

end loading

/-- Loading tells one event about unknown keys if there are any, and none otherwise. -/
theorem events_of_unknown (loaded : Loaded) (file : Path) :
    ((∃ text, text ∈ loaded.unknown) → loaded.events file = [unknownKeysEvent file loaded.unknown]) ∧
      ((¬∃ text, text ∈ loaded.unknown) → loaded.events file = []) := by
  unfold Loaded.events
  cases loaded.unknown with
  | nil => simp
  | cons text rest => simp

end ImportConfig

end TestMeasures
