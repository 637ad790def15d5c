import TestMeasures.Proofs.SectionFields

/-!
# The shape of settings

Settings are read exactly if they have the right shape: sections are tables or lists, a name and a folder are
texts or absent, and report paths are lists of texts. What stands under unknown keys does not matter.
`decode_is_ok` says so; `decode_unknown` says which keys are told, and `decode_importing` and
`decode_languages` which sections are read.
-/

namespace TestMeasures

/-! ## Texts and lists of texts -/

namespace Setting

/-- Whether a setting has a text. -/
def isPlain : Setting → Bool
  | .text _ | .truth _ | .integer _ | .number _ => true
  | .absent | .list _ _ | .table _ _ => false

/-- Whether a setting has a text or is absent. -/
def fitsText : Setting → Bool
  | .absent => true
  | other => other.isPlain

/-- Whether a setting is a list of settings that have texts. -/
def fitsTexts : Setting → Bool
  | .list _ items => items.all isPlain
  | _ => false

/-- A setting is read as a text exactly when it has one. -/
theorem as_text_is_ok (setting : Setting) : setting.asText.isOk = setting.isPlain := by
  cases setting <;> rfl

/-- A setting is read as a text that may be absent exactly when it has one or is absent. -/
theorem as_text_or_absent_is_ok (setting : Setting) : setting.asText?.isOk = setting.fitsText := by
  cases setting <;> rfl

/-- List items are read as texts exactly when each of them has one. -/
theorem texts_from_is_ok (place : Nat) (items : List Setting) :
    (textsFrom place items).isOk = items.all isPlain := by
  induction items generalizing place with
  | nil => rfl
  | cons item rest ih =>
      rw [textsFrom, List.all_cons, ← as_text_is_ok]
      cases item.asText with
      | error fault => rfl
      | ok text => exact (is_ok_map ..).trans (ih (place + 1))

/-- A setting is read as texts exactly when it is a list of settings that have them. -/
theorem as_texts_is_ok (setting : Setting) : setting.asTexts.isOk = setting.fitsTexts := by
  cases setting with
  | list origin items => exact texts_from_is_ok 0 items
  | absent | truth | integer | number | text | table => rfl

/-- What is found is absent, or there is a setting that is not. -/
theorem present_or_absent (found : Option Setting) :
    found.getD .absent = .absent ∨ ∃ setting, found = some setting ∧ setting ≠ .absent := by
  cases found with
  | none => exact .inl rfl
  | some setting =>
      by_cases habsent : setting = .absent
      · exact .inl habsent
      · exact .inr ⟨setting, rfl, habsent⟩

/-- What is read where a text may be absent: the text of a setting that is there, otherwise nothing. -/
theorem text_or_none {found : Option Setting} {read : Option String}
    (hfound : ∀ setting, found = some setting → setting.asText? = .ok read) (hnone : found = none → read = none) :
    (∀ setting, found = some setting → setting ≠ .absent →
      ∃ text, setting.asText = .ok text ∧ read = some text) ∧
    (found.getD .absent = .absent → read = none) := by
  constructor
  · rintro setting hsome hpresent
    have hread := hfound setting hsome
    cases setting with
    | absent => exact absurd rfl hpresent
    | truth | integer | number | text => exact ⟨_, rfl, (Except.ok.inj hread).symm⟩
    | list | table => cases hread
  · intro habsent
    cases found with
    | none => exact hnone rfl
    | some setting =>
        obtain rfl : setting = .absent := habsent
        exact (Except.ok.inj (hfound _ rfl)).symm

/-- The texts of a list are those of its items in order. -/
theorem texts_of_items {place : Nat} {items : List Setting} {texts : List String}
    (h : textsFrom place items = .ok texts) : items.map asText = texts.map .ok := by
  induction items generalizing place texts with
  | nil =>
      obtain rfl := Except.ok.inj h
      rfl
  | cons item rest ih =>
      rw [textsFrom] at h
      cases htext : item.asText with
      | error fault => simp [htext] at h
      | ok text =>
          cases hrest : textsFrom (place + 1) rest with
          | error fault => simp [htext, hrest, Except.map] at h
          | ok others =>
              obtain rfl : text :: others = texts := by simpa [htext, hrest, Except.map] using h
              rw [List.map_cons, List.map_cons, htext, ih hrest]

end Setting

/-! ## The fields of the sections -/

/-- The key that a dialect's report paths stand under. -/
def Dialect.pathsKey : Dialect → String
  | .xunit => "xunit-report-paths"
  | .nunit => "nunit-report-paths"
  | .vstest => "vstest-report-paths"

/-- What may stand in the import section. -/
def ImportSection.shape : SectionShape :=
  [("base-dir", Setting.fitsText)]

/-- What may stand in the section of a language. -/
def LanguageSection.shape : SectionShape :=
  [("name", Setting.fitsText), ("xunit-report-paths", Setting.fitsTexts),
    ("nunit-report-paths", Setting.fitsTexts), ("vstest-report-paths", Setting.fitsTexts)]

/-- The fields of the import section have its shape. -/
theorem ImportSection.fields_have_shape : ImportSection.fields.HaveShape ImportSection.shape :=
  .cons ⟨rfl, fun setting _ => (is_ok_map ..).trans setting.as_text_or_absent_is_ok⟩ .nil

/-- The fields of a language have the shape of its section. -/
theorem LanguageSection.fields_have_shape : LanguageSection.fields.HaveShape LanguageSection.shape := by
  refine .cons ⟨rfl, fun setting _ => (is_ok_map ..).trans setting.as_text_or_absent_is_ok⟩ ?_
  refine .cons ⟨rfl, fun setting _ => ?_⟩ <| .cons ⟨rfl, fun setting _ => ?_⟩ <|
    .cons ⟨rfl, fun setting _ => ?_⟩ .nil
  all_goals exact (is_ok_map ..).trans setting.as_texts_is_ok

/-- The import section has no key twice. -/
theorem ImportSection.keys_nodup : ImportSection.fields.keys.Nodup := by decide

/-- The section of a language has no key twice. -/
theorem LanguageSection.keys_nodup : LanguageSection.fields.keys.Nodup := by decide

/-- The import section reads its base directory from its field. -/
theorem ImportSection.reads_folder :
    ImportSection.fields.Reads "base-dir" Setting.asText? fun held => held.baseDir.map Path.text where
  known := by decide
  own := by
    intro field hfield _ setting held value h
    obtain rfl := List.mem_singleton.mp hfield
    obtain ⟨text, htext, rfl⟩ := map_eq_ok_iff.mp h
    rw [htext]
    cases text <;> rfl
  others := by
    intro field hfield hne
    exact absurd (List.mem_singleton.mp hfield ▸ rfl) hne

/-- The section of a language reads its name from its field. -/
theorem LanguageSection.reads_name :
    LanguageSection.fields.Reads "name" Setting.asText? LanguageSection.name where
  known := by decide
  own := by
    intro field hfield hkey setting held value h
    simp only [fields, List.mem_cons, List.not_mem_nil, or_false] at hfield
    rcases hfield with rfl | rfl | rfl | rfl
    · obtain ⟨name, hname, rfl⟩ := map_eq_ok_iff.mp h
      exact hname
    all_goals simp at hkey
  others := by
    intro field hfield hkey setting held value h
    simp only [fields, List.mem_cons, List.not_mem_nil, or_false] at hfield
    rcases hfield with rfl | rfl | rfl | rfl
    · exact absurd rfl hkey
    all_goals
      obtain ⟨paths, -, rfl⟩ := map_eq_ok_iff.mp h
      rfl

/-- The section of a language reads the paths of a dialect from the dialect's field. -/
theorem LanguageSection.reads_paths (dialect : Dialect) :
    LanguageSection.fields.Reads dialect.pathsKey Setting.asTexts fun held => held.reports.patterns dialect where
  known := by cases dialect <;> decide
  own := by
    intro field hfield hkey setting held value h
    simp only [fields, List.mem_cons, List.not_mem_nil, or_false] at hfield
    rcases hfield with rfl | rfl | rfl | rfl
    · cases dialect <;> simp [Dialect.pathsKey] at hkey
    all_goals
      obtain ⟨paths, hpaths, rfl⟩ := map_eq_ok_iff.mp h
      cases dialect <;> first | exact hpaths | simp [Dialect.pathsKey] at hkey
  others := by
    intro field hfield hkey setting held value h
    simp only [fields, List.mem_cons, List.not_mem_nil, or_false] at hfield
    rcases hfield with rfl | rfl | rfl | rfl
    all_goals
      obtain ⟨paths, -, rfl⟩ := map_eq_ok_iff.mp h
      cases dialect <;> first | rfl | exact absurd rfl hkey

/-! ## Settings -/

namespace Setting

/-- Whether an entry may stand at the top; anything may stand under an unknown key. -/
def fitsTop (entry : String × Setting) : Bool :=
  if entry.1 = "import" then ImportSection.shape.fits entry.2
  else if entry.1 = "language" then
    match entry.2 with
    | .table _ sections => sections.all fun language => LanguageSection.shape.fits language.2
    | _ => false
  else true

/-- Whether settings have the right shape. -/
def rightShape (settings : List (String × Setting)) : Bool :=
  settings.all fitsTop

/-- The import section; where there is none it is a table that says nothing. -/
def importSection (settings : List (String × Setting)) : Setting :=
  (find? "import" settings).getD (.table none [])

/-- The sections of languages by key. -/
def languageSections (settings : List (String × Setting)) : List (String × Setting) :=
  match find? "language" settings with
  | some (.table _ sections) => sections
  | _ => []

/-- The unknown keys under an entry at the top, by their full names. -/
def unknownUnder (entry : String × Setting) : List String :=
  if entry.1 = "import" then
    unknownNames ImportSection.shape.keys "import." (entry.2.entriesUnder ImportSection.shape.keys)
  else if entry.1 = "language" then
    match entry.2 with
    | .table _ sections => sections.flatMap fun language =>
        unknownNames LanguageSection.shape.keys ("language." ++ language.1 ++ ".")
          (language.2.entriesUnder LanguageSection.shape.keys)
    | _ => []
  else [entry.1]

end Setting

open Setting (fitsTop rightShape unknownUnder)

/-- One entry at the top is a section that is read, the sections of languages, or told. -/
theorem decode_top_cases {key : String} {setting : Setting} {decoded after : Decoded Sections}
    (h : decodeTop key setting decoded = .ok after) :
    (key = "import" ∧ ∃ read,
      decodeSection ImportSection.fields {} "struct ImportSectionDeserialize" "import." setting = .ok read ∧
      after = ⟨{ decoded.value with importing := read.value }, decoded.unknown ++ read.unknown⟩) ∨
    (key = "language" ∧ ∃ origin sections read,
      setting = .table origin sections ∧ decodeLanguages sections = .ok read ∧
      after = ⟨{ decoded.value with languages := read.value }, decoded.unknown ++ read.unknown⟩) ∨
    (key ≠ "import" ∧ key ≠ "language" ∧ after = { decoded with unknown := decoded.unknown ++ [key] }) := by
  unfold decodeTop at h
  split at h
  case isTrue himport =>
    obtain ⟨read, hread, rfl⟩ := map_eq_ok_iff.mp h
    exact .inl ⟨himport, read, hread, rfl⟩
  case isFalse himport =>
    split at h
    case isTrue hlanguage =>
      split at h
      case h_1 origin sections =>
        obtain ⟨read, hread, rfl⟩ := map_eq_ok_iff.mp h
        exact .inr (.inl ⟨hlanguage, origin, sections, read, rfl, hread, rfl⟩)
      case h_2 => cases h
    case isFalse hlanguage =>
      exact .inr (.inr ⟨himport, hlanguage, (Except.ok.inj h).symm⟩)

/-! ### Which settings are read -/

/-- The sections of languages can be decoded exactly when each of them fits its shape. -/
theorem decode_languages_is_ok (sections : List (String × Setting)) :
    (decodeLanguages sections).isOk = sections.all fun language => LanguageSection.shape.fits language.2 := by
  induction sections with
  | nil => rfl
  | cons language rest ih =>
      obtain ⟨key, setting⟩ := language
      rw [decodeLanguages, List.all_cons, ← LanguageSection.fields_have_shape.decode_section
        LanguageSection.keys_nodup setting {} "struct LanguageDeserialize" ("language." ++ key ++ ".")]
      cases decodeSection LanguageSection.fields {} "struct LanguageDeserialize" ("language." ++ key ++ ".")
          setting with
      | error fault => rfl
      | ok decoded => exact (is_ok_map ..).trans ih

/-- An entry at the top can be decoded exactly when it fits there. -/
theorem decode_top_is_ok (key : String) (setting : Setting) (decoded : Decoded Sections) :
    (decodeTop key setting decoded).isOk = fitsTop (key, setting) := by
  unfold decodeTop fitsTop
  split
  · exact (is_ok_map ..).trans
      (ImportSection.fields_have_shape.decode_section ImportSection.keys_nodup setting {} _ _)
  · split
    · cases setting with
      | table origin sections => exact (is_ok_map ..).trans (decode_languages_is_ok sections)
      | absent | truth | integer | number | text | list => rfl
    · rfl

/-- Settings are read exactly if they have the right shape. -/
theorem decode_is_ok (settings : List (String × Setting)) : (decode settings).isOk = rightShape settings := by
  have htops : ∀ decoded, (decodeTops settings decoded).isOk = rightShape settings := by
    induction settings with
    | nil => exact fun _ => rfl
    | cons entry rest ih =>
        intro decoded
        rw [rightShape, List.all_cons, ← decode_top_is_ok entry.1 entry.2 decoded, decodeTops]
        cases decodeTop entry.1 entry.2 decoded with
        | error fault => rfl
        | ok after => exact ih after
  exact htops _

/-! ### Which keys are told -/

/-- Decoding the sections of languages tells the unknown keys of each of them. -/
theorem decode_languages_unknown {sections : List (String × Setting)}
    {result : Decoded (List (String × LanguageSection))} (h : decodeLanguages sections = .ok result) :
    result.unknown = sections.flatMap fun language =>
      unknownNames LanguageSection.shape.keys ("language." ++ language.1 ++ ".")
        (language.2.entriesUnder LanguageSection.shape.keys) := by
  induction sections generalizing result with
  | nil =>
      obtain rfl := Except.ok.inj h
      rfl
  | cons language rest ih =>
      rw [decodeLanguages] at h
      split at h
      · cases h
      case h_2 decoded hdecode =>
        obtain ⟨others, hothers, rfl⟩ := map_eq_ok_iff.mp h
        rw [List.flatMap_cons, ← ih hothers, ← LanguageSection.fields_have_shape.keys_eq,
          ← decode_section_unknown LanguageSection.keys_nodup hdecode]

/-- Decoding entries at the top tells the unknown keys under each of them. -/
theorem decode_tops_unknown {settings : List (String × Setting)} {decoded result : Decoded Sections}
    (h : decodeTops settings decoded = .ok result) :
    result.unknown = decoded.unknown ++ settings.flatMap unknownUnder := by
  induction settings generalizing decoded with
  | nil =>
      obtain rfl := Except.ok.inj h
      exact (List.append_nil _).symm
  | cons entry rest ih =>
      rw [decodeTops] at h
      split at h
      · cases h
      case h_2 after hafter =>
        rw [ih h, List.flatMap_cons, ← List.append_assoc]
        congr 1
        rcases decode_top_cases hafter with ⟨hkey, read, hread, rfl⟩ |
          ⟨hkey, origin, sections, read, hsetting, hread, rfl⟩ | ⟨himport, hlanguage, rfl⟩
        · simp only [unknownUnder, hkey]
          rw [if_pos trivial, decode_section_unknown ImportSection.keys_nodup hread,
            ImportSection.fields_have_shape.keys_eq]
        · simp [unknownUnder, hkey, hsetting, decode_languages_unknown hread]
        · simp [unknownUnder, himport, hlanguage]

/-- Exactly the unknown keys are told, in the order in which they stand. -/
theorem decode_unknown {settings : List (String × Setting)} {result : Decoded Sections}
    (h : decode settings = .ok result) : result.unknown = settings.flatMap unknownUnder :=
  (decode_tops_unknown h).trans (List.nil_append _)

/-! ### What is read -/

/-- A part of what settings say that one key alone decides holds what was read under that key, or what it held
before. -/
theorem decode_tops_part {α : Type} (key : String) (Read : Setting → α → Prop) (part : Sections → α)
    (hown : ∀ {setting decoded after}, decodeTop key setting decoded = .ok after →
      Read setting (part after.value))
    (hothers : ∀ {other setting decoded after}, other ≠ key → decodeTop other setting decoded = .ok after →
      part after.value = part decoded.value)
    {settings : List (String × Setting)} (hkeys : (settings.map Prod.fst).Nodup)
    {decoded result : Decoded Sections} (h : decodeTops settings decoded = .ok result) :
    (∀ setting, Setting.find? key settings = some setting → Read setting (part result.value)) ∧
      (Setting.find? key settings = none → part result.value = part decoded.value) := by
  induction settings generalizing decoded with
  | nil =>
      obtain rfl := Except.ok.inj h
      exact ⟨fun setting hfind => absurd hfind.symm (Option.some_ne_none setting), fun _ => rfl⟩
  | cons entry rest ih =>
      obtain ⟨hentry, hrest⟩ := List.nodup_cons.mp hkeys
      rw [decodeTops] at h
      split at h
      · cases h
      case h_2 after hafter =>
        exact Setting.part_cons Read hentry (fun hkey => hown (hkey ▸ hafter))
          (fun hkey => hothers hkey hafter) (ih hrest h)

section parts

variable {settings : List (String × Setting)} {result : Decoded Sections}

/-- The import section is read as what is imported. -/
theorem decode_importing (hkeys : (settings.map Prod.fst).Nodup) (h : decode settings = .ok result) :
    ∃ told, decodeSection ImportSection.fields {} "struct ImportSectionDeserialize" "import."
      (Setting.importSection settings) = .ok ⟨result.value.importing, told⟩ := by
  obtain ⟨hfound, hkept⟩ := decode_tops_part "import"
    (fun setting importing => ∃ told, decodeSection ImportSection.fields {}
      "struct ImportSectionDeserialize" "import." setting = .ok ⟨importing, told⟩) Sections.importing
    (fun hafter => by
      rcases decode_top_cases hafter with ⟨-, read, hread, rfl⟩ | ⟨hkey, -⟩ | ⟨hne, -⟩
      · exact ⟨read.unknown, hread⟩
      · exact absurd hkey (by decide)
      · exact absurd rfl hne)
    (fun hne hafter => by
      rcases decode_top_cases hafter with ⟨hkey, -⟩ | ⟨-, origin, sections, read, -, -, rfl⟩ | ⟨-, -, rfl⟩
      · exact absurd hkey hne
      · rfl
      · rfl) hkeys h
  unfold Setting.importSection
  cases hfind : Setting.find? "import" settings with
  | some setting => exact hfound setting hfind
  | none =>
      refine ⟨[], ?_⟩
      rw [hkept hfind]
      rfl

/-- The sections of languages are read as the languages. -/
theorem decode_languages (hkeys : (settings.map Prod.fst).Nodup) (h : decode settings = .ok result) :
    ∃ told, decodeLanguages (Setting.languageSections settings) = .ok ⟨result.value.languages, told⟩ := by
  obtain ⟨hfound, hkept⟩ := decode_tops_part "language"
    (fun setting languages => ∃ origin sections told, setting = .table origin sections ∧
      decodeLanguages sections = .ok ⟨languages, told⟩) Sections.languages
    (fun hafter => by
      rcases decode_top_cases hafter with ⟨hkey, -⟩ | ⟨-, origin, sections, read, hsetting, hread, rfl⟩ |
        ⟨-, hne, -⟩
      · exact absurd hkey (by decide)
      · exact ⟨origin, sections, read.unknown, hsetting, hread⟩
      · exact absurd rfl hne)
    (fun hne hafter => by
      rcases decode_top_cases hafter with ⟨-, read, -, rfl⟩ | ⟨hkey, -⟩ | ⟨-, -, rfl⟩
      · rfl
      · exact absurd hkey hne
      · rfl) hkeys h
  unfold Setting.languageSections
  cases hfind : Setting.find? "language" settings with
  | some setting =>
      obtain ⟨origin, sections, told, rfl, hread⟩ := hfound setting hfind
      exact ⟨told, hread⟩
  | none => exact ⟨[], congrArg (fun languages => Except.ok (Decoded.mk languages [])) (hkept hfind).symm⟩

end parts

/-- The sections of languages are read one by one, each under its key. -/
theorem decode_languages_each {sections : List (String × Setting)}
    {result : Decoded (List (String × LanguageSection))} (h : decodeLanguages sections = .ok result) :
    result.value.map Prod.fst = sections.map Prod.fst ∧ ∀ key source, (key, source) ∈ sections →
      ∃ held, (key, held) ∈ result.value ∧ ∃ told, decodeSection LanguageSection.fields {}
        "struct LanguageDeserialize" ("language." ++ key ++ ".") source = .ok ⟨held, told⟩ := by
  induction sections generalizing result with
  | nil =>
      obtain rfl := Except.ok.inj h
      exact ⟨rfl, fun _ _ hmem => absurd hmem List.not_mem_nil⟩
  | cons entry rest ih =>
      rw [decodeLanguages] at h
      split at h
      · cases h
      case h_2 decoded hdecode =>
        obtain ⟨others, hothers, rfl⟩ := map_eq_ok_iff.mp h
        obtain ⟨hkeys, heach⟩ := ih hothers
        refine ⟨congrArg₂ List.cons rfl hkeys, fun key source hmem => ?_⟩
        rcases List.mem_cons.mp hmem with rfl | hmem
        · exact ⟨decoded.value, List.mem_cons_self, decoded.unknown, hdecode⟩
        · obtain ⟨held, hheld, hread⟩ := heach key source hmem
          exact ⟨held, List.mem_cons_of_mem _ hheld, hread⟩

end TestMeasures
