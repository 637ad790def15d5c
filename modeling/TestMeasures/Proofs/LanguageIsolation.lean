import TestMeasures.Proofs.LanguageRun

/-!
# Languages beside one that cannot be imported

What a language adds to a run depends on the store that it finds and on nothing else
(`Command.exists_addition`), and a language that cannot be imported leaves the store as it is. The others
therefore come to the same with it and without it (`Command.broken_language_leaves_others`).
-/

namespace TestMeasures

namespace Warnings

/-- The warnings that come of adding texts one after the other. -/
def ofTexts (texts : List String) : Warnings :=
  texts.foldl add .empty

/-- The warnings but for one text. -/
def without (text : String) (warnings : Warnings) : Warnings :=
  ⟨warnings.texts.filter (· ≠ text), warnings.distinct.filter _⟩

variable {warnings : Warnings} {text other : String}

/-- Adding a warning adds its text and nothing else. -/
theorem mem_add : other ∈ (warnings.add text).texts ↔ other ∈ warnings.texts ∨ other = text := by
  rw [texts_add]
  split
  case isTrue h => exact ⟨.inl, fun hother => hother.elim id fun heq => heq ▸ h⟩
  case isFalse => simp

/-- Adding warnings adds their texts and nothing else. -/
theorem mem_foldl_add {texts : List String} :
    other ∈ (texts.foldl add warnings).texts ↔ other ∈ warnings.texts ∨ other ∈ texts := by
  induction texts generalizing warnings with
  | nil => simp
  | cons head rest ih => rw [List.foldl_cons, ih, mem_add, List.mem_cons, or_assoc]

/-- Warnings hold the texts that they are made of. -/
theorem mem_of_texts {texts : List String} : other ∈ (ofTexts texts).texts ↔ other ∈ texts := by
  rw [ofTexts, mem_foldl_add]
  simp [empty]

/-- Among the other warnings, adding a text makes no difference. -/
theorem add_without_same (warnings : Warnings) (text : String) :
    (warnings.add text).without text = warnings.without text := by
  refine Warnings.ext ?_
  simp only [without, texts_add]
  split
  · rfl
  · simp

/-- Among the warnings but for one text, another text is added as among all of them. -/
theorem add_without (h : other ≠ text) :
    (warnings.add other).without text = (warnings.without text).add other := by
  have hmem : other ∈ warnings.texts.filter (· ≠ text) ↔ other ∈ warnings.texts := by simp [h]
  refine Warnings.ext ?_
  simp only [without, texts_add, hmem]
  split
  · rfl
  · simp [h]

/-- A text that is left out in the end may as well not have been added. -/
theorem foldl_without (text : String) (texts : List String) (warnings : Warnings) :
    (texts.foldl add warnings).without text =
      (texts.filter (· ≠ text)).foldl add (warnings.without text) := by
  induction texts generalizing warnings with
  | nil => rfl
  | cons head rest ih =>
      rw [List.foldl_cons, ih]
      by_cases h : head = text
      · rw [h, add_without_same, List.filter_cons_of_neg (by simp)]
      · rw [add_without h, List.filter_cons_of_pos (by simpa using h), List.foldl_cons]

/-- Texts that are all the same one make no difference to the other warnings. -/
theorem of_texts_without {before own after : List String} (hown : ∀ added ∈ own, added = text) :
    (ofTexts (before ++ own ++ after)).without text = (ofTexts (before ++ after)).without text := by
  have hnone : own.filter (· ≠ text) = [] :=
    List.filter_eq_nil_iff.mpr fun added hadded => by simp [hown added hadded]
  simp only [ofTexts, foldl_without, List.filter_append, hnone, List.append_nil]

end Warnings

/-- Two sources answer the same table, or both of them fail. -/
structure Source.Alike (a b : Source) : Prop where
  applicable : a.applicable = b.applicable
  answer : a.answer.toOption = b.answer.toOption

namespace Language

/-- The warnings that an outcome leaves. -/
def warningsOf (language : Language) (outcome : ImportOutcome) : List String :=
  if outcome = .failed then [language.warning] else []

variable (language : Language) (project : String)

/-- How an import ends does not depend on why results cannot be had. -/
theorem import_alike {a b : Source} (h : a.Alike b) (session : Session) :
    (language.importFrom a project session).outcome = (language.importFrom b project session).outcome ∧
      (language.importFrom a project session).session =
        (language.importFrom b project session).session := by
  obtain ⟨applicable, answer, told⟩ := a
  obtain ⟨applicable', answer', told'⟩ := b
  obtain ⟨rfl, hanswer⟩ : applicable = applicable' ∧ answer.toOption = answer'.toOption := ⟨h.1, h.2⟩
  unfold importFrom
  cases applicable with
  | false => exact ⟨rfl, rfl⟩
  | true =>
      cases answer with
      | error error =>
          cases answer' with
          | error error' => exact ⟨rfl, rfl⟩
          | ok table' => cases hanswer
      | ok table =>
          cases answer' with
          | error error' => cases hanswer
          | ok table' =>
              obtain rfl : table = table' := Option.some.inj hanswer
              simp only [if_true]
              split <;> exact ⟨rfl, rfl⟩

/-- An import looks at the store alone; what it adds to the warnings is told by its outcome. -/
theorem import_from_eq (source : Source) (store : Store) (warnings : Warnings) :
    let done := language.importFrom source project ⟨store, .empty⟩
    language.importFrom source project ⟨store, warnings⟩ =
      ⟨done.outcome, ⟨done.session.store, (language.warningsOf done.outcome).foldl .add warnings⟩,
        done.events⟩ := by
  unfold importFrom
  cases source.applicable with
  | false => rfl
  | true =>
      cases source.answer with
      | error error => rfl
      | ok table =>
          simp only [if_true]
          split <;> rfl

end Language

namespace Command

variable {space : Workspace} {entry : LanguageConfig}

/-- What languages add to a run, and the store that they leave. -/
structure Addition where
  languages : List (Language × ImportOutcome)
  store : Store
  warnings : List String
  events : List Event

/-- A run behind what languages add to it. -/
def Progress.plus (progress : Progress) (addition : Addition) : Progress :=
  ⟨progress.languages ++ addition.languages,
    ⟨addition.store, addition.warnings.foldl .add progress.session.warnings⟩,
    progress.events ++ addition.events⟩

/-- A language adds the same to every run that has come to the same store. -/
theorem step_eq_plus (space : Workspace) (project : String) (entry : LanguageConfig) (progress : Progress) :
    let done := entry.language.importFrom (.ofReports space entry.reports) project
      ⟨progress.session.store, .empty⟩
    progress.step space project entry =
      progress.plus ⟨[(entry.language, done.outcome)], done.session.store,
        entry.language.warningsOf done.outcome, done.events⟩ := by
  unfold Progress.step
  simp only [entry.language.import_from_eq project _ progress.session.store progress.session.warnings]
  rfl

/-- What is added in two steps can be added in one. -/
theorem plus_plus (progress : Progress) (first second : Addition) :
    (progress.plus first).plus second =
      progress.plus ⟨first.languages ++ second.languages, second.store,
        first.warnings ++ second.warnings, first.events ++ second.events⟩ := by
  simp only [Progress.plus, List.append_assoc, List.foldl_append]

/-- Languages add the same to every run that has come to the same store. -/
theorem exists_addition (space : Workspace) (project : String) (entries : List LanguageConfig)
    (store : Store) :
    ∃ addition : Addition, addition.languages.map Prod.fst = entries.map LanguageConfig.language ∧
      ∀ progress : Progress, progress.session.store = store →
        entries.foldl (Progress.step space project) progress = progress.plus addition := by
  induction entries generalizing store with
  | nil =>
      refine ⟨⟨[], store, [], []⟩, rfl, fun progress hstore => ?_⟩
      simp [Progress.plus, ← hstore]
  | cons entry rest ih =>
      let done := entry.language.importFrom (.ofReports space entry.reports) project ⟨store, .empty⟩
      obtain ⟨addition, hlanguages, hrest⟩ := ih done.session.store
      refine ⟨⟨(entry.language, done.outcome) :: addition.languages, addition.store,
        entry.language.warningsOf done.outcome ++ addition.warnings, done.events ++ addition.events⟩,
        by simp [hlanguages], fun progress hstore => ?_⟩
      have hstep := step_eq_plus space project entry progress
      rw [hstore] at hstep
      rw [List.foldl_cons, hstep, hrest _ rfl, plus_plus]
      rfl

/-- A language has no patterns, or its reports cannot be aggregated. -/
def Broken (space : Workspace) (entry : LanguageConfig) : Prop :=
  entry.reports.toList = [] ∨ ∃ error, (aggregate space entry.reports).1 = .error error

/-- The warning that a language leaves which cannot be imported; without patterns there is none. -/
def ownWarning (entry : LanguageConfig) : List String :=
  if entry.reports.toList = [] then [] else [entry.language.warning]

/-- A language that cannot be imported adds its outcome, its warning and what it tells. -/
theorem step_broken (project : String) (h : Broken space entry) :
    ∃ told, ∀ progress : Progress, progress.step space project entry =
      progress.plus ⟨[idle entry], progress.session.store, ownWarning entry, told⟩ := by
  have hasked : (Source.ofReports space entry.reports).applicable = true ↔ entry.reports.toList ≠ [] := by
    rw [Ne, ← Reports.is_empty_iff]
    simp [Source.ofReports]
  have hdone : ∃ told, ∀ store, entry.language.importFrom (.ofReports space entry.reports) project
      ⟨store, .empty⟩ = ⟨(idle entry).2, ⟨store, .ofTexts (ownWarning entry)⟩, told⟩ := by
    unfold Language.importFrom idle ownWarning
    by_cases hnone : entry.reports.toList = []
    · have hsource : (Source.ofReports space entry.reports).applicable = false := by
        simpa [hnone] using hasked
      simp [hsource, hnone, Warnings.ofTexts]
    · obtain ⟨error, hanswer⟩ := h.resolve_left hnone
      have hanswer : (Source.ofReports space entry.reports).answer = .error error := hanswer
      simp [hasked.mpr hnone, hanswer, hnone, Language.fail, Warnings.ofTexts]
  obtain ⟨told, hdone⟩ := hdone
  refine ⟨told, fun progress => ?_⟩
  have hwarnings : entry.language.warningsOf (idle entry).2 = ownWarning entry := by
    unfold Language.warningsOf idle ownWarning
    split <;> simp_all
  rw [step_eq_plus, hdone, hwarnings]
  rfl

/-- What languages around a place add does not depend on which language stands there, if that cannot be
imported, nor on whether one stands there. -/
theorem import_all_around (space : Workspace) (project : String) (before after : List LanguageConfig) :
    ∃ first second : Addition,
      first.languages.map Prod.fst = before.map LanguageConfig.language ∧
      second.languages.map Prod.fst = after.map LanguageConfig.language ∧
      importAll space project (before ++ after) =
        Progress.initial.plus ⟨first.languages ++ second.languages, second.store,
          first.warnings ++ second.warnings, first.events ++ second.events⟩ ∧
      ∀ entry, Broken space entry → ∃ told, importAll space project (before ++ entry :: after) =
        Progress.initial.plus ⟨first.languages ++ idle entry :: second.languages, second.store,
          first.warnings ++ ownWarning entry ++ second.warnings,
          first.events ++ told ++ second.events⟩ := by
  obtain ⟨first, hfirst, hbefore⟩ := exists_addition space project before Store.empty
  obtain ⟨second, hsecond, hafter⟩ := exists_addition space project after first.store
  refine ⟨first, second, hfirst, hsecond, ?_, fun entry hbroken => ?_⟩
  · rw [importAll, List.foldl_append, hbefore _ rfl, hafter _ rfl, plus_plus]
  · obtain ⟨told, hstep⟩ := step_broken project hbroken
    refine ⟨told, ?_⟩
    rw [importAll, List.foldl_append, List.foldl_cons, hbefore _ rfl, hstep, hafter _ rfl, plus_plus,
      plus_plus]
    simp

/-- Reports that cannot be aggregated are of some pattern. -/
theorem patterns_of_error {reports : Reports} {error : AggregateError}
    (h : (aggregate space reports).1 = .error error) : reports.toList ≠ [] := by
  intro hnone
  unfold aggregate at h
  rw [hnone] at h
  cases h

/-- Without a language that cannot be imported, a run comes to the same for every other language, and to
the same store. The warnings that the languages add one after the other are the same but for its own, so
no text is new and those other than its own stay in their order, and the log lacks what it told. With
other patterns whose reports cannot be aggregated either, only what it tells may be different. -/
theorem broken_language_leaves_others (tree : FileTree) (base : Path) (map : MethodMap) (project : String)
    (before after : List LanguageConfig) (entry : LanguageConfig)
    (hbroken : Broken ⟨tree, base, map⟩ entry) :
    let given := Setup.import ⟨⟨base, before ++ entry :: after⟩, map⟩ tree project
    let fewer := Setup.import ⟨⟨base, before ++ after⟩, map⟩ tree project
    (∃ ahead behind, ahead.map Prod.fst = before.map LanguageConfig.language ∧
      behind.map Prod.fst = after.map LanguageConfig.language ∧
      given.languages = ahead ++ idle entry :: behind ∧ fewer.languages = ahead ++ behind) ∧
    given.session.store = fewer.session.store ∧
    (∃ earlier later, given.session.warnings = .ofTexts (earlier ++ ownWarning entry ++ later) ∧
      fewer.session.warnings = .ofTexts (earlier ++ later)) ∧
    given.session.warnings.without entry.language.warning =
      fewer.session.warnings.without entry.language.warning ∧
    (∀ text ∈ fewer.session.warnings.texts, text ∈ given.session.warnings.texts) ∧
    (∃ earlier told later, given.events = earlier ++ told ++ later ∧ fewer.events = earlier ++ later) ∧
    ∀ reports error error', (aggregate ⟨tree, base, map⟩ entry.reports).1 = .error error →
      (aggregate ⟨tree, base, map⟩ reports).1 = .error error' →
      let other := Setup.import ⟨⟨base, before ++ ⟨entry.language, reports⟩ :: after⟩, map⟩ tree project
      other.languages = given.languages ∧ other.session = given.session ∧
      ∃ earlier told told' later, given.events = earlier ++ told ++ later ∧
        other.events = earlier ++ told' ++ later := by
  intro given fewer
  obtain ⟨first, second, hfirst, hsecond, hfewer, haround⟩ :=
    import_all_around ⟨tree, base, map⟩ project before after
  obtain ⟨told, hgiven⟩ := haround entry hbroken
  have hgiven : given = _ := hgiven
  have hfewer : fewer = _ := hfewer
  rw [hgiven, hfewer]
  have hown : ∀ added ∈ ownWarning entry, added = entry.language.warning := by
    unfold ownWarning
    split <;> simp
  refine ⟨⟨first.languages, second.languages, hfirst, hsecond, rfl, rfl⟩, rfl,
    ⟨first.warnings, second.warnings, rfl, rfl⟩, Warnings.of_texts_without hown, fun text htext => ?_,
    ⟨first.events, told, second.events, rfl, rfl⟩, fun reports error error' herror herror' => ?_⟩
  · rcases List.mem_append.mp (Warnings.mem_of_texts.mp htext) with htext | htext <;>
      exact Warnings.mem_of_texts.mpr (by simp [htext])
  · obtain ⟨told', hother⟩ := haround ⟨entry.language, reports⟩ (.inr ⟨error', herror'⟩)
    have hpatterns := patterns_of_error herror
    have hpatterns' := patterns_of_error herror'
    have hidle : idle ⟨entry.language, reports⟩ = idle entry := by
      unfold idle
      rw [if_neg hpatterns, if_neg hpatterns']
    have hwarning : ownWarning ⟨entry.language, reports⟩ = ownWarning entry := by
      unfold ownWarning
      rw [if_neg hpatterns, if_neg hpatterns']
    intro other
    have hother : other = _ := hother
    rw [hother, hidle, hwarning]
    exact ⟨rfl, rfl, first.events, told, told', second.events, rfl, rfl⟩

/-- A report beside a pattern that cannot be read. -/
theorem unreadable_pattern_leaves_other :
    let tree : FileTree := ⟨[(["a.xml"], .file (Text.Utf8.encode
      "<assemblies><test name=\"C.m\" result=\"Pass\"/></assemblies>"))]⟩
    let good : LanguageConfig := ⟨.cSharp, { xunit := ["a.xml"] }⟩
    let broken : LanguageConfig := ⟨.visualBasic, { nunit := ["b.xml", "[*"] }⟩
    let given := Setup.import ⟨⟨⟨"."⟩, [good, broken]⟩, .empty⟩ tree "project"
    let fewer := Setup.import ⟨⟨⟨"."⟩, [good]⟩, .empty⟩ tree "project"
    Broken ⟨tree, ⟨"."⟩, .empty⟩ broken ∧ given.session.store = fewer.session.store := by
  intro tree good broken given fewer
  have hbroken : Broken ⟨tree, ⟨"."⟩, .empty⟩ broken :=
    .inr ⟨.pattern (.glob "[*" "[*" .unclosedSet), by decide +kernel⟩
  exact ⟨hbroken, (broken_language_leaves_others tree ⟨"."⟩ .empty "project" [good] [] broken hbroken).2.1⟩

end Command

end TestMeasures
