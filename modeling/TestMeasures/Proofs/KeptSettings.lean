import TestMeasures.Proofs.DocumentKeys
import TestMeasures.Proofs.LanguageRun
import TestMeasures.Proofs.ToldKeys

/-!
# Kept settings

Whatever settings of the right shape say is kept in the configuration or told. `LanguageConfig.Keeps` and
`ImportConfig.Keeps` are what is kept: the base directory, one language for each section, and its name and
patterns. `ImportConfig.settings_kept_or_told` puts this beside the keys that are told and the empty key that
is refused; `ImportConfig.of_contents_outcome` goes through everything that can become of a file.
-/

namespace TestMeasures

open Setting (EntriesOnce importSection languageSections rightShape)

/-! ## Languages -/

/-- What stands under a key in the section of a language. -/
def LanguageSection.under? (key : String) (source : Setting) : Option Setting :=
  Setting.find? key (source.entriesUnder LanguageSection.shape.keys)

open LanguageSection (under?)

/-- A language has the name and, dialect by dialect, the patterns of its section, in order. Without a name it
is named after its key. -/
structure LanguageConfig.Keeps (config : LanguageConfig) (key : String) (source : Setting) : Prop where
  keyed : config.language.key = key
  named : ∀ setting, under? "name" source = some setting → setting ≠ .absent →
    setting.asText = .ok config.language.name
  unnamed : (under? "name" source).getD .absent = .absent → config.language.name = (Language.ofKey key).name
  listed : ∀ dialect origin items, under? dialect.pathsKey source = some (.list origin items) →
    items.map Setting.asText = (config.reports.patterns dialect).map .ok
  unlisted : ∀ dialect, under? dialect.pathsKey source = none → config.reports.patterns dialect = []

namespace LanguageConfig

/-- A section that is decoded is kept as the configuration of its language. -/
theorem keeps_of_decode {key : String} {source : Setting} {held : LanguageSection} {expected above : String}
    {told : List String} (hsource : source.KeysOnce)
    (h : decodeSection LanguageSection.fields {} expected above source = .ok ⟨held, told⟩) :
    (ImportConfig.languageConfig key held).Keeps key source := by
  have hnodup := Setting.entries_under_nodup hsource LanguageSection.keys_nodup
  obtain ⟨hread, hmissing⟩ := LanguageSection.reads_name.part_section LanguageSection.keys_nodup hnodup h
  obtain ⟨hnamed, hunnamed⟩ := Setting.text_or_none hread hmissing
  have hpaths := fun dialect =>
    (LanguageSection.reads_paths dialect).part_section LanguageSection.keys_nodup hnodup h
  refine ⟨rfl, fun setting hfind hpresent => ?_, fun habsent => ?_, fun dialect origin items hfind => ?_,
    fun dialect hfind => ?_⟩
  · obtain ⟨text, htext, hname⟩ := hnamed setting hfind hpresent
    rw [htext]
    exact congrArg Except.ok (congrArg (Option.getD · _) hname).symm
  · exact congrArg (Option.getD · _) (hunnamed habsent)
  · exact Setting.texts_of_items ((hpaths dialect).1 _ hfind)
  · refine ((hpaths dialect).2 hfind).trans ?_
    cases dialect <;> rfl

end LanguageConfig

/-! ## The configuration -/

/-- The base directory that settings name. -/
def Setting.baseDir? (settings : List (String × Setting)) : Option Setting :=
  Setting.find? "base-dir" ((importSection settings).entriesUnder ImportSection.shape.keys)

open Setting (baseDir?)

/-- A configuration has the base directory of settings, joined to the folder of the configuration file, and
one language for each section, found under its key. Without a base directory it has that folder. -/
structure ImportConfig.Keeps (config : ImportConfig) (file : Path) (settings : List (String × Setting)) :
    Prop where
  based : ∀ setting, baseDir? settings = some setting → setting ≠ .absent →
    ∃ text, setting.asText = .ok text ∧ config.baseDir = (folderOf file).join ⟨text⟩
  unbased : (baseDir? settings).getD .absent = .absent → config.baseDir = folderOf file
  increasing : KeysIncrease config.languages
  keyed : (config.languages.map (·.language.key)).Perm ((languageSections settings).map Prod.fst)
  found : ∀ key language, config.language? key = some language ↔
    language ∈ config.languages ∧ language.language.key = key
  kept : ∀ key source, (key, source) ∈ languageSections settings →
    ∃ language, config.language? key = some language ∧ language.Keeps key source

namespace ImportConfig

/-- Inserting a language under a new key adds it to the languages. -/
theorem insert_section_perm (config : LanguageConfig) {languages : List LanguageConfig}
    (h : config.language.key ∉ languages.map (·.language.key)) :
    (insertSection config.language.key config languages).Perm (config :: languages) := by
  induction languages with
  | nil => exact .refl _
  | cons head rest ih =>
      obtain ⟨hhead, hrest⟩ := not_or.mp (mt List.mem_cons.mpr h)
      unfold insertSection
      split
      case h_1 => exact .refl _
      case h_2 heq => exact absurd (Std.LawfulEqCmp.compare_eq_iff_eq.mp heq) hhead
      case h_3 => exact ((ih hrest).cons head).trans (.swap config head rest)

/-- Sections with different keys are all languages. -/
theorem languages_of_perm {sections : List (String × LanguageSection)} (h : (sections.map Prod.fst).Nodup) :
    (languagesOf sections).Perm (sections.map fun entry => languageConfig entry.1 entry.2) := by
  have hfold : ∀ held : List LanguageConfig, (∀ entry ∈ sections, entry.1 ∉ held.map (·.language.key)) →
      (sections.foldl (fun held entry => insertSection entry.1 (languageConfig entry.1 entry.2) held) held).Perm
        (held ++ sections.map fun entry => languageConfig entry.1 entry.2) := by
    induction sections with
    | nil => exact fun held _ => .of_eq (List.append_nil held).symm
    | cons entry rest ih =>
        intro held hheld
        obtain ⟨hentry, hrest⟩ := List.nodup_cons.mp h
        have hinsert := insert_section_perm (languageConfig entry.1 entry.2) (hheld entry List.mem_cons_self)
        refine (ih hrest _ fun other hother hmem => ?_).trans ?_
        · rcases List.mem_cons.mp ((hinsert.map _).mem_iff.mp hmem) with heq | hmem
          · exact hentry ((show other.1 = entry.1 from heq) ▸ List.mem_map_of_mem hother)
          · exact hheld other (List.mem_cons_of_mem _ hother) hmem
        · exact (hinsert.append_right _).trans List.perm_middle.symm
  exact (hfold [] fun _ _ => List.not_mem_nil).trans (.of_eq (List.nil_append _))

/-- Languages in key order are found under their keys. -/
theorem language_eq_some_iff {config : ImportConfig} (h : KeysIncrease config.languages) {key : String}
    {language : LanguageConfig} :
    config.language? key = some language ↔ language ∈ config.languages ∧ language.language.key = key := by
  obtain ⟨baseDir, languages⟩ := config
  unfold language?
  constructor
  · intro hfind
    exact ⟨List.mem_of_find?_eq_some hfind, by simpa using List.find?_some hfind⟩
  · rintro ⟨hmem, rfl⟩
    induction languages with
    | nil => cases hmem
    | cons head rest ih =>
        obtain ⟨hhead, hrest⟩ := List.pairwise_cons.mp h
        rcases List.mem_cons.mp hmem with rfl | hmem
        · simp
        · have hne : head.language.key ≠ language.language.key := fun heq =>
            String.lt_irrefl _ (heq ▸ hhead language hmem)
          rw [List.find?_cons_of_neg (by simpa using hne)]
          exact ih hrest hmem

/-- Decoded sections make a configuration unless a language has the empty key. -/
theorem of_sections_eq (file : Path) (sections : Sections) :
    ofSections file sections =
      if "" ∈ sections.languages.map Prod.fst then .error .emptyLanguageKey
      else .ok ⟨(sections.importing.baseDir.map (folderOf file).join).getD (folderOf file),
        languagesOf sections.languages⟩ := by
  unfold ofSections
  by_cases h : "" ∈ sections.languages.map Prod.fst
  · have hany : (sections.languages.any fun entry => entry.1 == "") = true := by
      obtain ⟨entry, hentry, heq⟩ := List.mem_map.mp h
      exact List.any_eq_true.mpr ⟨entry, hentry, by simpa using heq⟩
    rw [if_pos h, if_pos hany]
  · have hany : ¬(sections.languages.any fun entry => entry.1 == "") = true := by
      intro hany
      obtain ⟨entry, hentry, heq⟩ := List.any_eq_true.mp hany
      exact h (List.mem_map.mpr ⟨entry, hentry, by simpa using heq⟩)
    rw [if_neg h, if_neg hany]
    cases sections.importing.baseDir <;> rfl

section settings

variable {file : Path} {settings : List (String × Setting)} {decoded : Decoded Sections}

/-- Decoding keeps the base directory that the settings give, and only that. -/
theorem base_dir_of_decode (honce : EntriesOnce settings) (h : decode settings = .ok decoded) :
    (∀ setting, baseDir? settings = some setting → setting ≠ .absent →
      ∃ text, setting.asText = .ok text ∧ decoded.value.importing.baseDir = some ⟨text⟩) ∧
    ((baseDir? settings).getD .absent = .absent → decoded.value.importing.baseDir = none) := by
  obtain ⟨told, hread⟩ := decode_importing (Setting.entries_once_iff.mp honce).1 h
  obtain ⟨hread, hmissing⟩ := ImportSection.reads_folder.part_section ImportSection.keys_nodup
    (Setting.entries_under_nodup (Setting.import_section_once honce) ImportSection.keys_nodup) hread
  obtain ⟨hbased, hunbased⟩ := Setting.text_or_none hread hmissing
  refine ⟨fun setting hfind hpresent => ?_, fun habsent => Option.map_eq_none_iff.mp (hunbased habsent)⟩
  obtain ⟨text, htext, hsome⟩ := hbased setting hfind hpresent
  obtain ⟨folder, hfolder, rfl⟩ := Option.map_eq_some_iff.mp hsome
  exact ⟨folder.text, htext, hfolder⟩

/-- The languages that are read have the keys of their sections. -/
theorem keys_of_decode (honce : EntriesOnce settings) (h : decode settings = .ok decoded) :
    decoded.value.languages.map Prod.fst = (languageSections settings).map Prod.fst := by
  obtain ⟨told, hread⟩ := decode_languages (Setting.entries_once_iff.mp honce).1 h
  exact (decode_languages_each hread).1

/-- Decoding makes one language of each section. -/
theorem languages_of_decode (honce : EntriesOnce settings) (h : decode settings = .ok decoded) :
    (languagesOf decoded.value.languages).Perm
      (decoded.value.languages.map fun entry => languageConfig entry.1 entry.2) := by
  refine languages_of_perm ?_
  rw [keys_of_decode honce h]
  exact (Setting.entries_once_iff.mp (Setting.language_sections_once honce)).1

/-- The configuration that is made of settings keeps them. -/
theorem keeps_of_decode (honce : EntriesOnce settings) (h : decode settings = .ok decoded) :
    (⟨(decoded.value.importing.baseDir.map (folderOf file).join).getD (folderOf file),
      languagesOf decoded.value.languages⟩ : ImportConfig).Keeps file settings := by
  have hperm := languages_of_decode honce h
  have hincreasing := keys_increase_languages_of decoded.value.languages
  obtain ⟨hbased, hunbased⟩ := base_dir_of_decode honce h
  refine ⟨fun setting hfind hpresent => ?_, fun habsent => ?_, hincreasing, ?_,
    fun key language => language_eq_some_iff hincreasing, fun key source hsource => ?_⟩
  · obtain ⟨text, htext, hfolder⟩ := hbased setting hfind hpresent
    rw [hfolder]
    exact ⟨text, htext, rfl⟩
  · rw [hunbased habsent]
    rfl
  · refine (hperm.map _).trans (.of_eq ?_)
    rw [List.map_map, ← keys_of_decode honce h]
    rfl
  · obtain ⟨told, hread⟩ := decode_languages (Setting.entries_once_iff.mp honce).1 h
    obtain ⟨held, hheld, told, hdecode⟩ := (decode_languages_each hread).2 key source hsource
    have hmem : languageConfig key held ∈ languagesOf decoded.value.languages :=
      hperm.mem_iff.mpr (List.mem_map.mpr ⟨(key, held), hheld, rfl⟩)
    have honce := (Setting.entries_once_iff.mp (Setting.language_sections_once honce)).2 _ hsource
    exact ⟨languageConfig key held, (language_eq_some_iff hincreasing).mpr ⟨hmem, rfl⟩,
      LanguageConfig.keeps_of_decode honce hdecode⟩

end settings

end ImportConfig

/-! ## Settings that differ in unknown keys -/

/-- Settings say the same under the keys that are known, in whatever order. -/
structure Setting.SameKnown (settings settings' : List (String × Setting)) : Prop where
  based : baseDir? settings' = baseDir? settings
  keyed : ∀ key,
    key ∈ (languageSections settings').map Prod.fst ↔ key ∈ (languageSections settings).map Prod.fst
  said : ∀ name source source', (name, source) ∈ languageSections settings →
    (name, source') ∈ languageSections settings' →
    ∀ key ∈ LanguageSection.shape.keys, under? key source' = under? key source

/-- Settings that say the same under known keys do so the other way around. -/
theorem Setting.SameKnown.symm {settings settings' : List (String × Setting)}
    (h : Setting.SameKnown settings settings') : Setting.SameKnown settings' settings where
  based := h.based.symm
  keyed := fun key => (h.keyed key).symm
  said := fun name source source' hsource hsource' key hkey =>
    (h.said name source' source hsource' hsource key hkey).symm

/-- The paths of a dialect are a list in a section of the right shape. -/
theorem LanguageSection.paths_of_fits {source : Setting} (h : LanguageSection.shape.fits source = true)
    {dialect : Dialect} {setting : Setting} (hfind : under? dialect.pathsKey source = some setting) :
    ∃ origin items, setting = .list origin items := by
  have hall := List.all_eq_true.mp (Bool.and_eq_true_iff.mp h).2 _ (Setting.mem_of_find hfind)
  have hfits : setting.fitsTexts = true := by
    cases dialect <;> exact hall
  cases setting with
  | list origin items => exact ⟨origin, items, rfl⟩
  | absent | truth | integer | number | text | table => cases hfits

/-- Reports are equal when they have the same patterns for each dialect. -/
theorem Reports.eq_of_patterns {reports reports' : Reports}
    (h : ∀ dialect, reports.patterns dialect = reports'.patterns dialect) : reports = reports' := by
  cases reports
  cases reports'
  exact congr (congrArg₂ Reports.mk (h .xunit) (h .nunit)) (h .vstest)

/-- A section leaves no choice in the language that keeps it. -/
theorem LanguageConfig.Keeps.unique {language language' : LanguageConfig} {key : String}
    {source source' : Setting} (h : language.Keeps key source) (h' : language'.Keeps key source')
    (hfits : LanguageSection.shape.fits source = true)
    (hsame : ∀ key ∈ LanguageSection.shape.keys, under? key source' = under? key source) :
    language = language' := by
  have hname : language.language.name = language'.language.name := by
    have hname := hsame "name" (by decide)
    rcases Setting.present_or_absent (under? "name" source) with habsent | ⟨setting, hfind, hpresent⟩
    · rw [h.unnamed habsent, h'.unnamed (hname ▸ habsent)]
    · exact Except.ok.inj ((h.named setting hfind hpresent).symm.trans
        (h'.named setting (hname.trans hfind) hpresent))
  have hreports : language.reports = language'.reports := by
    refine Reports.eq_of_patterns fun dialect => ?_
    have hpaths := hsame dialect.pathsKey (by cases dialect <;> decide)
    cases hfind : under? dialect.pathsKey source with
    | none => rw [h.unlisted dialect hfind, h'.unlisted dialect (hpaths.trans hfind)]
    | some setting =>
        obtain ⟨origin, items, rfl⟩ := LanguageSection.paths_of_fits hfits hfind
        have htexts := (h.listed dialect origin items hfind).symm.trans
          (h'.listed dialect origin items (hpaths.trans hfind))
        exact List.map_injective_iff.mpr (fun _ _ => Except.ok.inj) htexts
  have hkey := h.keyed.trans h'.keyed.symm
  obtain ⟨⟨_, _⟩, _⟩ := language
  obtain ⟨⟨_, _⟩, _⟩ := language'
  cases hkey
  cases hname
  cases hreports
  rfl

namespace ImportConfig

section same

variable {file : Path} {settings settings' : List (String × Setting)} {config config' : ImportConfig}

/-- The languages of settings of the right shape have sections of the right shape. -/
theorem fits_of_right_shape (h : rightShape settings = true) {key : String} {source : Setting}
    (hsource : (key, source) ∈ languageSections settings) : LanguageSection.shape.fits source = true := by
  unfold languageSections at hsource
  split at hsource
  case h_1 origin sections hfind =>
    have hall := List.all_eq_true.mp h _ (Setting.mem_of_find hfind)
    exact List.all_eq_true.mp (show sections.all _ = true from hall) _ hsource
  case h_2 => cases hsource

/-- A language of a configuration keeps the section of its key. -/
theorem Keeps.language_keeps (h : config.Keeps file settings) {language : LanguageConfig}
    (hmem : language ∈ config.languages) :
    ∃ source, (language.language.key, source) ∈ languageSections settings ∧
      language.Keeps language.language.key source := by
  obtain ⟨⟨key, source⟩, hsource, hkey⟩ :=
    List.mem_map.mp (h.keyed.mem_iff.mp (List.mem_map_of_mem hmem))
  obtain rfl : key = language.language.key := hkey
  obtain ⟨held, hfind, hkeeps⟩ := h.kept _ source hsource
  obtain rfl : language = held := Option.some.inj (((h.found _ language).mpr ⟨hmem, rfl⟩).symm.trans hfind)
  exact ⟨source, hsource, hkeeps⟩

/-- A language that is kept from settings is kept from others that say the same under known keys. -/
theorem Keeps.languages_subset (h : config.Keeps file settings) (h' : config'.Keeps file settings')
    (hshape : rightShape settings = true) (hsame : Setting.SameKnown settings settings') :
    ∀ language ∈ config.languages, language ∈ config'.languages := by
  intro language hmem
  obtain ⟨source, hsource, hkeeps⟩ := h.language_keeps hmem
  obtain ⟨⟨key, source'⟩, hsource', hkey⟩ :=
    List.mem_map.mp ((hsame.keyed _).mpr (List.mem_map_of_mem hsource))
  obtain rfl : key = language.language.key := hkey
  obtain ⟨language', hfind, hkeeps'⟩ := h'.kept _ source' hsource'
  obtain rfl := hkeeps.unique hkeeps' (fits_of_right_shape hshape hsource) (hsame.said _ _ _ hsource hsource')
  exact ((h'.found _ _).mp hfind).1

/-- Languages in increasing order of their keys are distinct. -/
theorem KeysIncrease.nodup {languages : List LanguageConfig} (h : KeysIncrease languages) :
    languages.Nodup := by
  refine List.Pairwise.imp ?_ (show languages.Pairwise fun a b => a.language.key < b.language.key from h)
  rintro a b hlt rfl
  exact String.lt_irrefl _ hlt

/-- Settings leave no choice in the configuration that keeps them, nor do their unknown keys. -/
theorem Keeps.unique (h : config.Keeps file settings) (h' : config'.Keeps file settings')
    (hshape : rightShape settings = true) (hshape' : rightShape settings' = true)
    (hsame : Setting.SameKnown settings settings') : config = config' := by
  have hbase : config.baseDir = config'.baseDir := by
    rcases Setting.present_or_absent (baseDir? settings) with habsent | ⟨setting, hfind, hpresent⟩
    · rw [h.unbased habsent, h'.unbased (hsame.based ▸ habsent)]
    · obtain ⟨text, htext, hfolder⟩ := h.based setting hfind hpresent
      obtain ⟨text', htext', hfolder'⟩ := h'.based setting (hsame.based.trans hfind) hpresent
      obtain rfl : text = text' := Except.ok.inj (htext.symm.trans htext')
      exact hfolder.trans hfolder'.symm
  have hmem : ∀ language, language ∈ config.languages ↔ language ∈ config'.languages := fun language =>
    ⟨h.languages_subset h' hshape hsame language, h'.languages_subset h hshape' hsame.symm language⟩
  have hlanguages : config.languages = config'.languages :=
    List.Perm.eq_of_pairwise (fun _ _ _ _ hlt hgt => absurd (String.lt_trans hlt hgt) (String.lt_irrefl _))
      h.increasing h'.increasing
      ((List.perm_ext_iff_of_nodup h.increasing.nodup h'.increasing.nodup).mpr hmem)
  obtain ⟨_, _⟩ := config
  obtain ⟨_, _⟩ := config'
  cases hbase
  cases hlanguages
  rfl

end same

/-- Settings of the right shape come to no configuration if a language has the empty key, otherwise to one
that keeps them. -/
theorem of_settings_config (file : Path) {settings : List (String × Setting)} (honce : EntriesOnce settings)
    (h : rightShape settings = true) :
    ("" ∈ (languageSections settings).map Prod.fst ∧
      (ofSettings file settings).config = .error ⟨file, .emptyLanguageKey⟩) ∨
    ("" ∉ (languageSections settings).map Prod.fst ∧
      ∃ config, (ofSettings file settings).config = .ok config ∧ config.Keeps file settings) := by
  obtain ⟨decoded, hdecode⟩ := exists_decode h
  rw [of_settings_eq hdecode, of_sections_eq, keys_of_decode honce hdecode]
  by_cases hempty : "" ∈ (languageSections settings).map Prod.fst
  · rw [if_pos hempty]
    exact .inl ⟨hempty, rfl⟩
  · rw [if_neg hempty]
    exact .inr ⟨hempty, _, rfl, keeps_of_decode honce hdecode⟩

/-- Whatever settings of the right shape say is kept or told. The unknown keys are told in order, all in one
event, and there is no event without them; this does not depend on what becomes of the configuration. Only
an empty key of a language is refused, and otherwise there is a configuration that keeps what the settings
say. Settings that differ in unknown keys only come to the same configuration. -/
theorem settings_kept_or_told (file : Path) (settings : List (String × Setting))
    (honce : EntriesOnce settings) (hshape : rightShape settings = true) :
    let loaded := ofSettings file settings
    (loaded.unknown.Pairwise (· < ·) ∧ (∀ text, text ∈ loaded.unknown ↔ UnknownKey settings text) ∧
      ((∃ text, UnknownKey settings text) → loaded.events file = [unknownKeysEvent file loaded.unknown]) ∧
      ((¬∃ text, UnknownKey settings text) → loaded.events file = [])) ∧
    (loaded.config = .error ⟨file, .emptyLanguageKey⟩ ↔ "" ∈ (languageSections settings).map Prod.fst) ∧
    ("" ∉ (languageSections settings).map Prod.fst →
      ∃ config, loaded.config = .ok config ∧ config.Keeps file settings) ∧
    ∀ settings', EntriesOnce settings' → rightShape settings' = true → Setting.SameKnown settings settings' →
      (ofSettings file settings').config = loaded.config := by
  intro loaded
  have hunknown : ∀ text, text ∈ loaded.unknown ↔ UnknownKey settings text := fun _ => mem_unknown_iff hshape
  have hevents := events_of_unknown loaded file
  simp only [hunknown] at hevents
  refine ⟨⟨unknown_increases hshape, hunknown, hevents⟩, ?_, ?_, fun settings' honce' hshape' hsame => ?_⟩
  · rcases of_settings_config file honce hshape with ⟨hempty, hconfig⟩ | ⟨hempty, config, hconfig, -⟩
    · exact ⟨fun _ => hempty, fun _ => hconfig⟩
    · exact ⟨fun herror => (by simp [loaded, hconfig] at herror), fun h => absurd h hempty⟩
  · intro hnone
    rcases of_settings_config file honce hshape with ⟨hempty, -⟩ | ⟨-, hconfig⟩
    · exact absurd hempty hnone
    · exact hconfig
  · rcases of_settings_config file honce hshape with ⟨hempty, hconfig⟩ | ⟨hempty, config, hconfig, hkeeps⟩
    all_goals rcases of_settings_config file honce' hshape' with
      ⟨hempty', hconfig'⟩ | ⟨hempty', config', hconfig', hkeeps'⟩
    · exact hconfig'.trans hconfig.symm
    · exact absurd ((hsame.keyed "").mpr hempty) hempty'
    · exact absurd ((hsame.keyed "").mp hempty') hempty
    · rw [hconfig', show loaded.config = .ok config from hconfig,
        hkeeps.unique hkeeps' hshape hshape' hsame]

/-- Settings with an unknown key at each level, and a list that stands for the section of a language. -/
def misspeltSettings : List (String × Setting) :=
  [("reporting", .truth true),
    ("import", .table none [("basedir", .text "reports"), ("base-dir", .text "..")]),
    ("language", .table none
      [("vbnet", .list none [.text "Visual Basic"]),
        ("cs", .table none
          [("xunit-report-path", .list none [.text "typo.xml"]),
            ("xunit-report-paths", .list none [.text "b.xml", .text "a.xml"])])])]

/-- The same settings in another order, without the keys that mean nothing. -/
def correctedSettings : List (String × Setting) :=
  [("language", .table none
      [("cs", .table none [("xunit-report-paths", .list none [.text "b.xml", .text "a.xml"])]),
        ("vbnet", .table none [("name", .text "Visual Basic")])]),
    ("import", .list none [.text ".."])]

/-- The misspelt keys are told, and the configuration is that of the corrected settings. -/
theorem misspelt_keys_told :
    EntriesOnce misspeltSettings ∧ rightShape misspeltSettings = true ∧
      EntriesOnce correctedSettings ∧ rightShape correctedSettings = true ∧
      Setting.SameKnown misspeltSettings correctedSettings ∧
      let file : Path := ⟨".config/testreport.toml"⟩
      let loaded := ofSettings file misspeltSettings
      "language.cs.xunit-report-path" ∈ loaded.unknown ∧ "language.cs.xunit-report-paths" ∉ loaded.unknown ∧
      loaded.events file = [unknownKeysEvent file loaded.unknown] ∧
      ∃ config, loaded.config = .ok config ∧ (ofSettings file correctedSettings).config = .ok config ∧
        config.baseDir = ⟨".config/.."⟩ ∧
        ∃ language, config.language? "cs" = some language ∧ language.language.name = "C#" ∧
          language.reports.xunit = ["b.xml", "a.xml"] := by
  have honce : EntriesOnce misspeltSettings := by
    simp [misspeltSettings, EntriesOnce, Setting.KeysOnce, Setting.ItemsOnce]
  have honce' : EntriesOnce correctedSettings := by
    simp [correctedSettings, EntriesOnce, Setting.KeysOnce, Setting.ItemsOnce]
  have hshape : rightShape misspeltSettings = true := by decide
  have hshape' : rightShape correctedSettings = true := by decide
  have hsame : Setting.SameKnown misspeltSettings correctedSettings := by
    refine ⟨rfl, fun key => ?_, fun name source source' hsource hsource' key hkey => ?_⟩
    · show key ∈ ["cs", "vbnet"] ↔ key ∈ ["vbnet", "cs"]
      simp [or_comm]
    · simp only [LanguageSection.shape, SectionShape.keys, List.map_cons, List.map_nil,
        List.mem_cons, List.not_mem_nil, or_false] at hkey
      rcases List.mem_pair.mp hsource with heq | heq <;> rcases List.mem_pair.mp hsource' with heq' | heq' <;>
        obtain ⟨rfl, rfl⟩ := Prod.mk.inj heq <;> obtain ⟨hname, rfl⟩ := Prod.mk.inj heq'
      · exact absurd hname (by decide)
      · rcases hkey with rfl | rfl | rfl | rfl <;> rfl
      · rcases hkey with rfl | rfl | rfl | rfl <;> rfl
      · exact absurd hname (by decide)
  obtain ⟨⟨-, hunknown, hevents, -⟩, -, hconfig, hcorrected⟩ :=
    settings_kept_or_told ⟨".config/testreport.toml"⟩ misspeltSettings honce hshape
  have htold : UnknownKey misspeltSettings ("language." ++ "cs" ++ "." ++ "xunit-report-path") :=
    .language (.tail _ (.tail _ (.head _))) (.tail _ (.head _)) (List.mem_cons_self ..) (by decide)
  rw [show "language." ++ "cs" ++ "." ++ "xunit-report-path" = "language.cs.xunit-report-path" by decide]
    at htold
  obtain ⟨config, hloaded, hkeeps⟩ := hconfig (by decide)
  obtain ⟨text, htext, hbase⟩ := hkeeps.based (.text "..") rfl (by simp)
  obtain ⟨language, hlanguage, hcs⟩ := hkeeps.kept "cs" _ (.tail _ (.head _))
  refine ⟨honce, hshape, honce', hshape', hsame, (hunknown _).mpr htold, ?_, hevents ⟨_, htold⟩, config,
    hloaded, (hcorrected correctedSettings honce' hshape' hsame).trans hloaded, ?_, language, hlanguage,
    hcs.unnamed rfl, ?_⟩
  · decide +kernel
  · obtain rfl := Except.ok.inj htext
    exact hbase
  · have htexts := hcs.listed .xunit none [.text "b.xml", .text "a.xml"] rfl
    exact (List.map_injective_iff.mpr (fun _ _ => Except.ok.inj) htexts).symm

/-- Everything that can become of the contents of a file: they are no document, the settings have the wrong
shape, a language has the empty key, or there is a configuration that keeps the settings. In the first two
cases no key is told. -/
theorem of_contents_outcome (file : Path) (origin : Option String) (contents : String) :
    let loaded := ofContents file origin contents
    (Toml.parse contents = none ∧ loaded.config = .error ⟨file, .notToml⟩ ∧ loaded.unknown = []) ∨
    ∃ document, Toml.parse contents = some document ∧
      let settings := Setting.ofDocument origin document
      (rightShape settings = false ∧ (∃ fault, loaded.config = .error ⟨file, .setting fault⟩) ∧
        loaded.unknown = []) ∨
      (rightShape settings = true ∧ (∀ text, text ∈ loaded.unknown ↔ UnknownKey settings text) ∧
        (("" ∈ (languageSections settings).map Prod.fst ∧ loaded.config = .error ⟨file, .emptyLanguageKey⟩) ∨
          ∃ config, loaded.config = .ok config ∧ config.Keeps file settings)) := by
  intro loaded
  cases hparse : Toml.parse contents with
  | none =>
      have heq : loaded = ⟨.error ⟨file, .notToml⟩, []⟩ := by simp only [loaded, ofContents, hparse]
      exact .inl ⟨rfl, by rw [heq], by rw [heq]⟩
  | some document =>
      have heq : loaded = ofSettings file (Setting.ofDocument origin document) := by
        simp only [loaded, ofContents, hparse]
      refine .inr ⟨document, rfl, ?_⟩
      rw [heq]
      cases hshape : rightShape (Setting.ofDocument origin document) with
      | false =>
          refine .inl ⟨hshape, ?_⟩
          have hok := decode_is_ok (Setting.ofDocument origin document)
          rw [hshape] at hok
          unfold ofSettings
          cases hdecode : decode (Setting.ofDocument origin document) with
          | error fault => exact ⟨⟨fault, rfl⟩, rfl⟩
          | ok decoded => rw [hdecode] at hok; cases hok
      | true =>
          refine .inr ⟨hshape, fun _ => mem_unknown_iff hshape, ?_⟩
          exact (of_settings_config file (Setting.document_once hparse origin) hshape).imp_right And.right

end ImportConfig

end TestMeasures
