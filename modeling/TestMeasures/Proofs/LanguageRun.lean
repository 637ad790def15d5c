import TestMeasures.Command.Run
import TestMeasures.Proofs.Publication
import TestMeasures.Proofs.ReportSet

/-!
# The languages of a run

Languages publish for one project into one store, so the first whose reports can be aggregated is the only
one that is imported. `Command.Stage` is what holds after any number of languages: nothing is published
yet, or one language has published and the store holds its project. `Command.one_language_publishes` reads
the outcomes of a whole run off it.
-/

namespace TestMeasures

namespace ImportConfig

/-- The keys of languages increase. -/
def KeysIncrease (languages : List LanguageConfig) : Prop :=
  languages.Pairwise fun a b => a.language.key < b.language.key

/-- A language behind an insertion is the one that was inserted or was there. -/
theorem mem_insert_section {key : String} {config other : LanguageConfig} {languages : List LanguageConfig}
    (h : other ∈ insertSection key config languages) : other = config ∨ other ∈ languages := by
  induction languages with
  | nil => exact .inl (List.mem_singleton.mp h)
  | cons head rest ih =>
      unfold insertSection at h
      split at h
      case h_1 => exact List.mem_cons.mp h
      case h_2 => exact (List.mem_cons.mp h).imp_right (List.mem_cons_of_mem _)
      case h_3 =>
        rcases List.mem_cons.mp h with rfl | h
        · exact .inr List.mem_cons_self
        · exact (ih h).imp_right (List.mem_cons_of_mem _)

/-- Inserting a language keeps the increasing order of keys. -/
theorem keys_increase_insert {languages : List LanguageConfig} (h : KeysIncrease languages)
    (config : LanguageConfig) : KeysIncrease (insertSection config.language.key config languages) := by
  induction languages with
  | nil => exact List.pairwise_singleton _ _
  | cons head rest ih =>
      obtain ⟨hhead, hrest⟩ := List.pairwise_cons.mp h
      unfold insertSection
      split
      case h_1 hlt =>
        have hlt : config.language.key < head.language.key := compareOfLessAndEq_eq_lt.mp hlt
        refine List.pairwise_cons.mpr ⟨fun other hother => ?_, h⟩
        rcases List.mem_cons.mp hother with rfl | hother
        · exact hlt
        · exact String.lt_trans hlt (hhead other hother)
      case h_2 heq =>
        have heq : config.language.key = head.language.key := Std.LawfulEqCmp.compare_eq_iff_eq.mp heq
        exact List.pairwise_cons.mpr ⟨fun other hother => heq ▸ hhead other hother, hrest⟩
      case h_3 hgt =>
        rw [Std.OrientedOrd.eq_swap, Ordering.swap_eq_gt] at hgt
        have hgt : head.language.key < config.language.key := compareOfLessAndEq_eq_lt.mp hgt
        refine List.pairwise_cons.mpr ⟨fun other hother => ?_, ih hrest⟩
        rcases mem_insert_section hother with rfl | hother
        · exact hgt
        · exact hhead other hother

/-- The languages of decoded sections stand in increasing order of their keys. -/
theorem keys_increase_languages_of (sections : List (String × LanguageSection)) :
    KeysIncrease (languagesOf sections) := by
  have hfold : ∀ held, KeysIncrease held → KeysIncrease (sections.foldl (fun held entry =>
      insertSection entry.1 (languageConfig entry.1 entry.2) held) held) := by
    induction sections with
    | nil => exact fun held hheld => hheld
    | cons entry rest ih =>
        exact fun held hheld => ih _ (keys_increase_insert hheld (languageConfig entry.1 entry.2))
  exact hfold [] .nil

/-- The languages of a configuration that was loaded are in key order. -/
theorem keys_increase_of_load {tree : FileTree} {file : Path} {config : ImportConfig}
    (h : (load tree file).config = .ok config) : KeysIncrease config.languages := by
  have hsections : ∀ {file sections}, ofSections file sections = .ok config →
      KeysIncrease config.languages := by
    intro file sections h
    unfold ofSections at h
    split at h
    · cases h
    · obtain rfl := Except.ok.inj h
      exact keys_increase_languages_of sections.languages
  have hsettings : ∀ {file settings}, (ofSettings file settings).config = .ok config →
      KeysIncrease config.languages := by
    intro file settings h
    unfold ofSettings at h
    split at h
    · cases h
    case h_2 decoded _ =>
      cases hresult : ofSections file decoded.value with
      | error fault => rw [hresult] at h; cases h
      | ok other =>
          rw [hresult] at h
          obtain rfl := Except.ok.inj h
          exact hsections hresult
  unfold load at h
  split at h
  · cases h
  · split at h
    · cases h
    · unfold ofContents at h
      split at h
      · cases h
      · exact hsettings h

end ImportConfig

/-- No two blocks of a table are about one component. -/
theorem Table.blocks_apart (table : Table) (project : String) :
    (table.blocks project).Pairwise Block.Apart := by
  refine List.pairwise_append.mpr ⟨?_, List.pairwise_singleton _ _, ?_⟩
  · rw [List.pairwise_map]
    exact table.files_distinct.imp fun hne hsame => hne (Component.same_file_iff.mp hsame)
  · intro block hblock other hother
    obtain ⟨row, -, rfl⟩ := List.mem_map.mp hblock
    rw [List.mem_singleton.mp hother]
    simp [Block.Apart, Component.same]

/-- The blocks of the source files of a table are not about a project. -/
theorem Table.no_project_among_files (table : Table) :
    (table.files.map fun row => (⟨.file row.1, row.2⟩ : Block)).filter
      (fun block => block.component.file?.isNone) = [] := by
  refine List.filter_eq_nil_iff.mpr fun block hblock => ?_
  obtain ⟨row, -, rfl⟩ := List.mem_map.mp hblock
  simp [Component.file?]

/-- The last block of a table is about the project. -/
theorem Table.project_block (table : Table) (project : String) :
    (table.blocks project).filter (fun block => block.component.file?.isNone) =
      [⟨.project project, table.total⟩] := by
  rw [blocks, List.filter_append, no_project_among_files]
  rfl

/-- The blocks before the last block of a table are about files. -/
theorem Table.file_blocks {table : Table} {project : String} {taken rest : List Block} {last : Block}
    (h : table.blocks project = taken ++ last :: rest) :
    taken.filter (fun block => block.component.file?.isNone) = [] := by
  obtain ⟨front, final, hback⟩ : ∃ front final, last :: rest = front ++ [final] :=
    ⟨_, _, (List.dropLast_concat_getLast (List.cons_ne_nil last rest)).symm⟩
  rw [hback, ← List.append_assoc, blocks] at h
  have hfiles := (List.append_inj' h rfl).1
  have hnone := table.no_project_among_files
  rw [hfiles, List.filter_append, List.append_eq_nil_iff] at hnone
  exact hnone.1

/-- Reports are empty exactly when they list no pattern. -/
theorem Reports.is_empty_iff (reports : Reports) : reports.isEmpty = true ↔ reports.toList = [] := by
  simp [isEmpty, toList, Dialect.all, patterns, and_assoc]

namespace Command

variable {space : Workspace} {project : String} {entries : List LanguageConfig} {progress : Progress}

/-- A language has patterns, and its reports are aggregated to a table. -/
def Answers (space : Workspace) (entry : LanguageConfig) (table : Table) : Prop :=
  entry.reports.toList ≠ [] ∧ (aggregate space entry.reports).1 = .ok table

/-- The outcome of a language that is not imported. -/
def idle (entry : LanguageConfig) : Language × ImportOutcome :=
  (entry.language, if entry.reports.toList = [] then .skipped else .failed)

/-- The import of a language. -/
def importCall (space : Workspace) (project : String) (warnings : Warnings) (entry : LanguageConfig) :
    ImportCall :=
  ⟨entry.language, .ofReports space entry.reports, project, warnings⟩

/-- On a store of blocks, a language is either imported with all of its blocks, or adds at most files; and
on the empty store it adds nothing then and answers no table. -/
theorem import_cases (space : Workspace) (project : String) (warnings : Warnings) (entry : LanguageConfig)
    {store : Store} {held : List Block} (hstore : store.measures = held.flatMap Block.figures)
    (hapart : held.Pairwise Block.Apart) :
    ∃ taken, (held ++ taken).Pairwise Block.Apart ∧
      ((importCall space project warnings entry).run store).session.store.measures =
        (held ++ taken).flatMap Block.figures ∧
      ((∃ table, Answers space entry table ∧ taken = table.blocks project ∧
          ((importCall space project warnings entry).run store).outcome = .imported table.files.length) ∨
        ((entry.language, ((importCall space project warnings entry).run store).outcome) = idle entry ∧
          taken.filter (fun block => block.component.file?.isNone) = [] ∧
          (held = [] → taken = [] ∧ ∀ table, ¬ Answers space entry table))) := by
  obtain ⟨taken, hall, hmeasures, hending⟩ := (importCall space project warnings entry).run_ends hstore hapart
  refine ⟨taken, hall, hmeasures, ?_⟩
  have hasked : ∀ asked, (importCall space project warnings entry).source.applicable = asked →
      (asked = true ↔ entry.reports.toList ≠ []) := by
    rintro asked rfl
    rw [Ne, ← Reports.is_empty_iff]
    simp [importCall, Source.ofReports]
  cases hending with
  | skipped hsource houtcome =>
      have hnone : entry.reports.toList = [] := by simpa using (hasked _ hsource).not
      exact .inr ⟨by rw [houtcome, idle, if_pos hnone], rfl, fun _ => ⟨rfl, fun table h => h.1 hnone⟩⟩
  | unread error hsource hanswer houtcome =>
      have hsome := (hasked _ hsource).mp rfl
      refine .inr ⟨by rw [houtcome, idle, if_neg hsome], rfl, fun _ => ⟨rfl, fun table h => ?_⟩⟩
      cases hanswer.symm.trans h.2
  | refused table _ block rest _ hsource hanswer hblocks hheld hdone =>
      have hsome := (hasked _ hsource).mp rfl
      have htable := table.blocks_apart project
      refine .inr ⟨by rw [hdone, idle, if_neg hsome]; rfl, Table.file_blocks hblocks, ?_⟩
      -- On the empty store the clash would be between two blocks of one table.
      rintro rfl
      obtain ⟨other, hother, hclash⟩ := hheld
      rw [show table.blocks project = taken ++ block :: rest from hblocks] at htable
      exact absurd ((List.pairwise_append.mp htable).2.2 other hother block List.mem_cons_self) hclash
  | complete table hsource hanswer houtcome =>
      exact .inl ⟨table, ⟨(hasked _ hsource).mp rfl, hanswer⟩, rfl, houtcome⟩

/-- How far languages have come: none of them has published yet, or one has, and the store holds its
project. -/
inductive Stage (space : Workspace) (project : String) (entries : List LanguageConfig)
    (progress : Progress) : Prop where
  | quiet (hnone : ∀ entry ∈ entries, ∀ table, ¬ Answers space entry table)
      (hlanguages : progress.languages = entries.map idle)
      (hstore : progress.session.store.measures = [])
  | published (before : List LanguageConfig) (entry : LanguageConfig) (after : List LanguageConfig)
      (table : Table) (held : List Block)
      (hentries : entries = before ++ entry :: after)
      (hnone : ∀ earlier ∈ before, ∀ table, ¬ Answers space earlier table)
      (hanswers : Answers space entry table)
      (hlanguages : progress.languages =
        before.map idle ++ (entry.language, .imported table.files.length) :: after.map idle)
      (hstore : progress.session.store.measures = held.flatMap Block.figures)
      (hapart : held.Pairwise Block.Apart)
      (hproject : held.filter (fun block => block.component.file?.isNone) =
        [⟨.project project, table.total⟩])

/-- One more language keeps the stage or publishes first. -/
theorem Stage.step (h : Stage space project entries progress) (entry : LanguageConfig) :
    Stage space project (entries ++ [entry]) (progress.step space project entry) := by
  have hstep : (progress.step space project entry).languages = progress.languages ++ [(entry.language,
      ((importCall space project progress.session.warnings entry).run progress.session.store).outcome)] := rfl
  cases h with
  | quiet hnone hlanguages hstore =>
      obtain ⟨taken, hall, hmeasures, hcases⟩ := import_cases space project progress.session.warnings entry
        (show _ = ([] : List Block).flatMap Block.figures from hstore) .nil
      rcases hcases with ⟨table, hanswers, rfl, houtcome⟩ | ⟨hidle, hfiles, hempty⟩
      · refine .published entries entry [] table _ rfl hnone hanswers ?_ hmeasures hall
          (table.project_block project)
        rw [hstep, hlanguages, houtcome]
        rfl
      · obtain ⟨rfl, hunanswered⟩ := hempty rfl
        refine .quiet (fun other hother => ?_) ?_ hmeasures
        · rcases List.mem_append.mp hother with hother | hother
          · exact hnone other hother
          · rw [List.mem_singleton.mp hother]
            exact hunanswered
        · rw [hstep, hidle, hlanguages, List.map_append]
          rfl
  | published before publisher after table held hentries hnone hanswers hlanguages hstore hapart hproject =>
      obtain ⟨taken, hall, hmeasures, hcases⟩ := import_cases space project progress.session.warnings entry
        hstore hapart
      rcases hcases with ⟨other, -, rfl, -⟩ | ⟨hidle, hfiles, -⟩
      · -- The project would be published twice.
        exfalso
        have hheld : (⟨.project project, table.total⟩ : Block) ∈ held :=
          List.mem_of_mem_filter (hproject ▸ List.mem_singleton_self _)
        have hagain : (⟨.project project, other.total⟩ : Block) ∈ other.blocks project := by simp [Table.blocks]
        exact (List.pairwise_append.mp hall).2.2 _ hheld _ hagain (Component.same_equivalence.refl _)
      · refine .published before publisher (after ++ [entry]) table (held ++ taken) (by simp [hentries]) hnone
          hanswers ?_ hmeasures hall (by rw [List.filter_append, hproject, hfiles, List.append_nil])
        rw [hstep, hidle, hlanguages]
        simp

/-- Every run of languages comes to a stage. -/
theorem import_all_stage (space : Workspace) (project : String) (entries : List LanguageConfig) :
    Stage space project entries (importAll space project entries) := by
  rcases List.eq_nil_or_concat entries with rfl | ⟨earlier, entry, rfl⟩
  · exact .quiet (by simp) rfl rfl
  · rw [List.concat_eq_append, importAll, List.foldl_append]
    exact (import_all_stage space project earlier).step entry
termination_by entries.length

/-- The measures about a project in a store of blocks are the figures of its blocks about a project. -/
theorem project_measures_of_blocks (held : List Block) :
    (held.flatMap Block.figures).filter (fun measure => measure.component.file?.isNone) =
      (held.filter fun block => block.component.file?.isNone).flatMap Block.figures := by
  induction held with
  | nil => rfl
  | cons block rest ih =>
      have hall : ∀ measure ∈ block.figures,
          measure.component.file?.isNone = block.component.file?.isNone := by
        intro measure hmeasure
        rw [Block.component_of_mem_figures hmeasure]
      rw [List.flatMap_cons, List.filter_append, ih, List.filter_cons]
      cases hproject : block.component.file?.isNone with
      | true =>
          rw [List.filter_eq_self.mpr fun measure hmeasure => (hall measure hmeasure).trans hproject,
            if_pos rfl, List.flatMap_cons]
      | false =>
          have hnone : block.figures.filter (fun measure => measure.component.file?.isNone) = [] :=
            List.filter_eq_nil_iff.mpr fun measure hmeasure => by simp [hall measure hmeasure, hproject]
          rw [hnone, if_neg Bool.false_ne_true, List.nil_append]

/-- The languages of a setup that was loaded stand in increasing order of their keys. -/
theorem keys_increase_of_setup {tree : FileTree} {options : Options} {setup : Setup} {events : List Event}
    (h : Setup.load tree options = (.ok setup, events)) :
    ImportConfig.KeysIncrease setup.config.languages := by
  unfold Setup.load at h
  simp only at h
  split at h
  · cases h
  case h_2 config hconfig =>
    split at h
    · cases h
    · cases h
      exact ImportConfig.keys_increase_of_load hconfig

/-- A loaded configuration has its languages in key order, and of those with a pattern the first whose
reports can be aggregated is imported, with all of its source files. Every other language is skipped if it
has no pattern and fails if it has one, and what the store says about projects in the end are the figures
of the total of the one that is imported, or nothing if none is. -/
theorem one_language_publishes (setup : Setup) (tree : FileTree) (project : String) :
    let space : Workspace := ⟨tree, setup.config.baseDir, setup.map⟩
    let progress := setup.import tree project
    let projectMeasures :=
      progress.session.store.measures.filter fun measure => measure.component.file?.isNone
    (∀ options events, Setup.load tree options = (.ok setup, events) →
      ImportConfig.KeysIncrease setup.config.languages) ∧
    ((∀ entry ∈ setup.config.languages, ∀ table, ¬ Answers space entry table) ∧
        progress.languages = setup.config.languages.map idle ∧ projectMeasures = [] ∨
      ∃ before entry after table, setup.config.languages = before ++ entry :: after ∧
        (∀ earlier ∈ before, ∀ table, ¬ Answers space earlier table) ∧
        Answers space entry table ∧
        (table.files.Pairwise fun a b => a.1.components ≠ b.1.components) ∧
        progress.languages =
          before.map idle ++ (entry.language, .imported table.files.length) :: after.map idle ∧
        projectMeasures = Block.figures ⟨.project project, table.total⟩) := by
  intro space progress projectMeasures
  refine ⟨fun options events hload => keys_increase_of_setup hload, ?_⟩
  · have hstage : Stage space project setup.config.languages progress := import_all_stage _ _ _
    cases hstage with
    | quiet hnone hlanguages hstore => exact .inl ⟨hnone, hlanguages, by simp [projectMeasures, hstore]⟩
    | published before entry after table held hentries hnone hanswers hlanguages hstore hapart hproject =>
        refine .inr ⟨before, entry, after, table, hentries, hnone, hanswers,
          table.files_distinct, hlanguages, ?_⟩
        simp only [projectMeasures]
        rw [hstore, project_measures_of_blocks, hproject, List.flatMap_singleton]

end Command

end TestMeasures
