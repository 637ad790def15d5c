import TestMeasures.Import.Aggregate
import TestMeasures.Proofs.PathSpelling
import TestMeasures.Proofs.TableView

/-!
# What an aggregation has done

`Aggregation.Accounts` ties the state of an aggregation to the reports that the patterns read so far lead
to: each of them is kept under one spelling, parsed without a fault, announced once, and merged into the
table. Every report that is added preserves it, so `aggregate_ok` can say what a whole aggregation that
succeeds has done, and `aggregate_error` what one that fails has met.
-/

namespace TestMeasures

namespace FileTree

variable {tree : FileTree} {path : Path}

/-- Below what is no folder there are no folders. -/
theorem folders_below_of_no_folder (h : tree.isFolder path = false) : tree.foldersBelow path = [] := by
  unfold foldersBelow
  split
  case h_1 top hresolve => simp [isFolder, hresolve] at h
  case h_2 => rfl

/-- Every folder below one can be opened if none of their paths is too long. -/
theorem unopened_eq_none_iff : tree.unopened? path = none ↔
    ∀ names ∈ tree.foldersBelow path, (path.below names).text.utf8ByteSize ≤ pathLimit := by
  simp [unopened?, List.find?_eq_none]

end FileTree

namespace Pattern

/-- The glob of a pattern, if it has one, can be read. -/
def IsValid (pattern : String) : Prop :=
  isGlob pattern = true → ∃ tokens, Glob.parse (globPart pattern) = .ok tokens

/-- The folders below the one that is searched that are opened for a pattern: all of them for one with a glob that
can be read, otherwise none. -/
def opened (tree : FileTree) (base : Path) (pattern : String) : List Path :=
  if isGlob pattern && (Glob.parse (globPart pattern)).isOk then
    (tree.foldersBelow (searchFolder base pattern)).map (searchFolder base pattern).below
  else []

variable {tree : FileTree} {base : Path}

/-- Where a glob can be read, every folder below the one that is searched is opened. -/
theorem opened_of_glob (tree : FileTree) (base : Path) {pattern : String} (h : isGlob pattern = true)
    {tokens : List Glob.Token} (hglob : Glob.parse (globPart pattern) = .ok tokens) :
    opened tree base pattern =
      (tree.foldersBelow (searchFolder base pattern)).map (searchFolder base pattern).below := by
  have hok : (Glob.parse (globPart pattern)).isOk = true := by
    rw [hglob]
    rfl
  rw [opened, h, hok, Bool.and_true, if_pos rfl]

/-- Below what is no folder, none is opened. -/
theorem opened_of_no_folder {pattern : String} (h : tree.isFolder (searchFolder base pattern) = false) :
    opened tree base pattern = [] := by
  rw [opened, FileTree.folders_below_of_no_folder h, List.map_nil, ite_self]

/-- What a pattern with a glob comes to. -/
theorem resolve_of_glob (tree : FileTree) (base : Path) {pattern : String} (h : isGlob pattern = true) :
    resolve tree base pattern =
      match Glob.parse (globPart pattern) with
      | .error fault => .error (.glob pattern (globPart pattern) fault)
      | .ok tokens =>
        if tree.isFolder (searchFolder base pattern) then
          match tree.unopened? (searchFolder base pattern) with
          | some fault => .error (.walk pattern (searchFolder base pattern) fault)
          | none => .ok (matchesBelow tree (searchFolder base pattern) tokens)
        else .ok [] := by
  unfold resolve
  refine (if_pos h).trans ?_
  cases Glob.parse (globPart pattern) with
  | error fault => rfl
  | ok tokens => cases tree.unopened? (searchFolder base pattern) <;> rfl

/-- A pattern without a glob names one file. -/
theorem resolve_of_name (tree : FileTree) (base : Path) {pattern : String} (h : ¬ isGlob pattern = true) :
    resolve tree base pattern = .ok (if tree.isFile (base.join ⟨pattern⟩) then [base.join ⟨pattern⟩] else []) := by
  unfold resolve
  rw [if_neg h]

/-- A pattern stands for paths exactly when its glob can be read and no folder that is opened for it has a path that
is too long. -/
theorem resolve_ok_iff (pattern : String) :
    (∃ paths, resolve tree base pattern = .ok paths) ↔
      IsValid pattern ∧ ∀ folder ∈ opened tree base pattern, folder.text.utf8ByteSize ≤ FileTree.pathLimit := by
  by_cases hglob : isGlob pattern = true
  · rw [resolve_of_glob tree base hglob]
    unfold IsValid
    simp only [hglob, forall_const]
    cases hparse : Glob.parse (globPart pattern) with
    | error fault => simp
    | ok tokens =>
        simp only [Except.ok.injEq, exists_eq', true_and]
        cases hfolder : tree.isFolder (searchFolder base pattern) with
        | false => simp [opened_of_no_folder hfolder]
        | true =>
            rw [opened_of_glob tree base hglob hparse, List.forall_mem_map, ← FileTree.unopened_eq_none_iff]
            cases tree.unopened? (searchFolder base pattern) <;> simp
  · rw [resolve_of_name tree base hglob]
    simp [IsValid, opened, hglob]

/-- Inserting a path adds it and nothing else. -/
theorem mem_insert_path {path other : Path} {paths : List Path} :
    other ∈ insertPath path paths ↔ other = path ∨ other ∈ paths := by
  induction paths with
  | nil => simp [insertPath]
  | cons head rest ih =>
      unfold insertPath
      split
      · simp only [List.mem_cons, ih, or_left_comm]
      · simp only [List.mem_cons]

/-- Sorting keeps the paths. -/
theorem mem_sort_paths {path : Path} {paths : List Path} : path ∈ sortPaths paths ↔ path ∈ paths := by
  unfold sortPaths
  induction paths with
  | nil => simp
  | cons head rest ih => rw [List.foldr_cons, mem_insert_path, ih, List.mem_cons]

/-- The names below a folder are names of entries of the tree, and there is at least one. -/
theorem mem_files_below {names : List String} {folder : Path} (h : names ∈ tree.filesBelow folder) :
    names ≠ [] ∧ ∃ entry ∈ tree.entries, ∀ name ∈ names, name ∈ entry.1 := by
  unfold FileTree.filesBelow at h
  split at h
  case h_1 top _ =>
    obtain ⟨entry, hentry, hnames⟩ := List.mem_filterMap.mp h
    split at hnames
    case h_1 =>
      unfold FileTree.below? at hnames
      split at hnames
      case isTrue hbelow =>
        obtain rfl := Option.some.inj hnames
        exact ⟨by simp [hbelow.2], entry, hentry, fun name hname => List.mem_of_mem_drop hname⟩
      case isFalse => cases hnames
    case h_2 => cases hnames
  case h_2 => cases h

/-- A pattern stands for the file that it names or for files below the folder in front of its glob. -/
theorem of_mem_resolve {pattern : String} {paths : List Path} {path : Path}
    (h : resolve tree base pattern = .ok paths) (hpath : path ∈ paths) :
    path = base.join ⟨pattern⟩ ∧ tree.isFile path = true ∨
      ∃ names ∈ tree.filesBelow (searchFolder base pattern),
        path = (searchFolder base pattern).below names := by
  by_cases hglob : isGlob pattern = true
  · rw [resolve_of_glob tree base hglob] at h
    split at h
    case h_1 => cases h
    case h_2 tokens _ =>
      split at h
      case isFalse =>
        obtain rfl := Except.ok.inj h
        cases hpath
      case isTrue =>
        split at h
        case h_1 => cases h
        case h_2 =>
          obtain rfl := Except.ok.inj h
          obtain ⟨names, hmatch, rfl⟩ := List.mem_map.mp (mem_sort_paths.mp hpath)
          exact .inr ⟨names, (List.mem_filter.mp hmatch).1, rfl⟩
  · rw [resolve_of_name tree base hglob] at h
    obtain rfl := Except.ok.inj h
    split at hpath
    case isTrue hfile =>
      obtain rfl := List.mem_singleton.mp hpath
      exact .inl ⟨rfl, hfile⟩
    case isFalse => cases hpath

/-- In a tree with names of files only, what a pattern stands for ends in a step. -/
theorem ends_in_step_of_mem_resolve (hnames : tree.Named) {pattern : String} {paths : List Path}
    {path : Path} (h : resolve tree base pattern = .ok paths) (hpath : path ∈ paths) :
    Path.EndsInStep path.pieces := by
  rcases of_mem_resolve h hpath with ⟨-, hfile⟩ | ⟨names, hbelow, rfl⟩
  · exact FileTree.ends_in_step_of_is_file hfile
  · obtain ⟨hne, entry, hentry, hin⟩ := mem_files_below hbelow
    obtain ⟨init, last, rfl⟩ := List.eq_nil_or_concat names |>.resolve_left hne
    unfold Path.below
    rw [List.concat_eq_append, List.foldl_append]
    exact Path.ends_in_step_join (hnames entry hentry last (hin last (by simp))) _

end Pattern

/-- A report file: the dialect it is read in and the path it is found under. -/
abbrev ReportFile := Dialect × Path

/-- Two report files are one when they are read in the same dialect and their paths have the same
components. -/
def ReportFile.Same (a b : ReportFile) : Prop :=
  a.1 = b.1 ∧ a.2.components = b.2.components

/-- The event that opens the parsing of a report file. -/
def ReportFile.opening (report : ReportFile) : Event :=
  report.1.opening report.2

/-- Whether an event tells that a report is parsed. -/
def Event.announces (event : Event) : Bool :=
  event.level == .info && "Parsing the ".toList.isPrefixOf event.message.toList

namespace Workspace

/-- A pattern of the report file's dialect stands for its path. -/
def Yields (space : Workspace) (reports : Reports) (report : ReportFile) : Prop :=
  ∃ pattern ∈ reports.patterns report.1, ∃ paths,
    Pattern.resolve space.tree space.base pattern = .ok paths ∧ report.2 ∈ paths

/-- What a report file amounts to by itself, parsed into an empty table. -/
def parseAlone (space : Workspace) (report : ReportFile) : Parsed :=
  report.1.parseFile space.tree report.2 space.map .empty

/-- The tables of report files, merged in order. -/
def mergeAll (space : Workspace) (reports : List ReportFile) : Table :=
  reports.foldl (fun table report => table.merge (space.parseAlone report).table) .empty

/-- One more report is merged behind the others. -/
theorem merge_all_append (space : Workspace) (reports : List ReportFile) (report : ReportFile) :
    space.mergeAll (reports ++ [report]) =
      (space.mergeAll reports).merge (space.parseAlone report).table := by
  simp [mergeAll]

/-- The event that opens a report announces it. -/
theorem announces_opening (report : ReportFile) : report.opening.announces = true := by
  simp only [ReportFile.opening, Dialect.opening, Event.announces, String.toList_append,
    List.append_assoc]
  rfl

/-- What follows from tags is told without announcing a report. -/
theorem filter_announces_effects (map : MethodMap) (effects : List Effect) :
    (effectEvents map effects).filter Event.announces = [] := by
  refine List.filter_eq_nil_iff.mpr fun event hevent => ?_
  obtain ⟨effect, -, hevent⟩ := List.mem_flatMap.mp hevent
  have hlevel : event.level = .debug := by
    cases effect with
    | note scope message => rw [List.mem_singleton.mp hevent]
    | charge name record =>
        simp only [Effect.events, attribution] at hevent
        split at hevent
        · cases hevent
        · rw [List.mem_singleton.mp hevent]
  simp [Event.announces, hlevel]

/-- A report that is parsed without a fault is announced exactly once. -/
theorem announced_once {space : Workspace} {report : ReportFile}
    (h : (space.parseAlone report).failure = none) :
    (space.parseAlone report).events.filter Event.announces = [report.opening] := by
  unfold parseAlone Dialect.parseFile at h ⊢
  split at h
  case h_1 => cases h
  case h_2 =>
    simp only [Dialect.parse, Account.addTo, List.filter_append,
      filter_announces_effects, List.append_nil]
    exact List.filter_cons_of_pos (announces_opening report)
  case h_3 => cases h

end Workspace

namespace Aggregation

/-- How the state of an aggregation accounts for the report files visited so far: it has seen each of
them under one spelling, and parsed, announced and merged what it has seen in order. -/
structure Accounts (space : Workspace) (state : Aggregation) (visits : List ReportFile) : Prop where
  visited : ∀ report ∈ state.seen, report ∈ visits
  covered : ∀ report ∈ visits, ∃ kept ∈ state.seen, report.Same kept
  distinct : state.seen.Pairwise fun a b => ¬ ReportFile.Same a b
  parsed : ∀ report ∈ state.seen, (space.parseAlone report).failure = none
  table_eq : state.table = space.mergeAll state.seen.reverse
  announced : state.events.filter Event.announces = state.seen.reverse.map ReportFile.opening

variable {space : Workspace} {state after : Aggregation} {visits : List ReportFile}

/-- In front of any report, an aggregation accounts for none. -/
theorem initial_accounts : initial.Accounts space [] where
  visited := by simp [initial]
  covered := by simp
  distinct := List.Pairwise.nil
  parsed := by simp [initial]
  table_eq := rfl
  announced := rfl

/-- A report file was seen if one of its spellings was kept. -/
theorem has_seen_iff {dialect : Dialect} {path : Path} :
    state.hasSeen dialect path = true ↔ ∃ kept ∈ state.seen, ReportFile.Same (dialect, path) kept := by
  simp only [hasSeen, List.any_eq_true, Bool.and_eq_true, beq_iff_eq, Path.same_iff, ReportFile.Same]
  constructor <;> rintro ⟨kept, hkept, hdialect, hpath⟩ <;>
    exact ⟨kept, hkept, hdialect.symm, hpath.symm⟩

/-- Telling what announces no report keeps the accounts. -/
theorem Accounts.tell (h : state.Accounts space visits) {event : Event}
    (hevent : event.announces = false) : (state.tell [event]).Accounts space visits where
  visited := h.visited
  covered := h.covered
  distinct := h.distinct
  parsed := h.parsed
  table_eq := h.table_eq
  announced := by simpa [Aggregation.tell, hevent] using h.announced

/-- A report file that is one of those seen changes nothing in the accounts. -/
theorem Accounts.visit_again (h : state.Accounts space visits) {report : ReportFile}
    (hseen : ∃ kept ∈ state.seen, report.Same kept) :
    state.Accounts space (visits ++ [report]) where
  visited other hother := List.mem_append_left _ (h.visited other hother)
  covered other hother := by
    rcases List.mem_append.mp hother with hother | hother
    · exact h.covered other hother
    · rwa [List.mem_singleton.mp hother]
  distinct := h.distinct
  parsed := h.parsed
  table_eq := h.table_eq
  announced := h.announced

/-- Adding a report without a fault accounts for it. -/
theorem Accounts.add_file (h : state.Accounts space visits) {dialect : Dialect} {path : Path}
    (hrun : addFile space dialect state path = (after, none)) :
    after.Accounts space (visits ++ [(dialect, path)]) := by
  unfold addFile at hrun
  split at hrun
  case isTrue hseen =>
    obtain ⟨rfl, -⟩ := Prod.mk.inj hrun
    exact (h.visit_again (has_seen_iff.mp hseen)).tell (by simp [Event.announces])
  case isFalse hfresh =>
    rw [has_seen_iff] at hfresh
    simp only at hrun
    split at hrun
    case h_1 => cases hrun
    case h_2 hfailure =>
      obtain ⟨rfl, -⟩ := Prod.mk.inj hrun
      -- Whether a report has a fault does not depend on the table it is parsed into.
      have hparsed : (space.parseAlone (dialect, path)).failure = none := hfailure
      have hannounced := Workspace.announced_once hparsed
      rw [Workspace.parseAlone] at hannounced
      refine ⟨?_, ?_, ?_, ?_, ?_, ?_⟩
      · intro report hreport
        rcases List.mem_cons.mp hreport with rfl | hreport
        · simp
        · exact List.mem_append_left _ (h.visited report hreport)
      · intro report hreport
        rcases List.mem_append.mp hreport with hreport | hreport
        · obtain ⟨kept, hkept, hsame⟩ := h.covered report hreport
          exact ⟨kept, List.mem_cons_of_mem _ hkept, hsame⟩
        · rw [List.mem_singleton.mp hreport]
          exact ⟨(dialect, path), List.mem_cons_self, rfl, rfl⟩
      · exact List.pairwise_cons.mpr
          ⟨fun kept hkept hsame => hfresh ⟨kept, hkept, hsame⟩, h.distinct⟩
      · intro report hreport
        rcases List.mem_cons.mp hreport with rfl | hreport
        · exact hparsed
        · exact h.parsed report hreport
      · rw [List.reverse_cons, Workspace.merge_all_append, ← h.table_eq]
        rfl
      · rw [List.filter_append, h.announced, hannounced, List.reverse_cons, List.map_append,
          List.map_singleton]

/-- A report that ends the aggregation cannot be parsed by itself. -/
theorem add_file_error {dialect : Dialect} {path : Path} {error : AggregateError}
    (hrun : addFile space dialect state path = (after, some error)) :
    (space.parseAlone (dialect, path)).failure ≠ none := by
  unfold addFile at hrun
  split at hrun
  case isTrue => cases hrun
  case isFalse =>
    simp only at hrun
    split at hrun
    case h_1 fault hfailure =>
      intro hnone
      rw [Workspace.parseAlone, hfailure] at hnone
      cases hnone
    case h_2 => cases hrun

/-- Adding reports without a fault accounts for each of them. -/
theorem Accounts.add_files (h : state.Accounts space visits) {dialect : Dialect} {paths : List Path}
    (hrun : addFiles space dialect state paths = (after, none)) :
    after.Accounts space (visits ++ paths.map (dialect, ·)) := by
  induction paths generalizing state visits with
  | nil =>
      obtain ⟨rfl, -⟩ := Prod.mk.inj hrun
      simpa using h
  | cons path rest ih =>
      unfold addFiles at hrun
      split at hrun
      case h_1 next hnext => simpa using ih (h.add_file hnext) hrun
      case h_2 _ hfailed => exact absurd hrun (hfailed after)

/-- Files only fail through one that cannot be parsed by itself. -/
theorem add_files_error {dialect : Dialect} {paths : List Path} {error : AggregateError}
    (hrun : addFiles space dialect state paths = (after, some error)) :
    ∃ path ∈ paths, (space.parseAlone (dialect, path)).failure ≠ none := by
  induction paths generalizing state with
  | nil => cases hrun
  | cons path rest ih =>
      unfold addFiles at hrun
      split at hrun
      case h_1 next hnext =>
        obtain ⟨faulty, hmem, hfaulty⟩ := ih hrun
        exact ⟨faulty, List.mem_cons_of_mem _ hmem, hfaulty⟩
      case h_2 => exact ⟨path, List.mem_cons_self, add_file_error hrun⟩

/-- Adding the reports of a pattern without a fault accounts for what the pattern stands for. -/
theorem Accounts.add_pattern (h : state.Accounts space visits) {dialect : Dialect} {pattern : String}
    (hrun : addPattern space state dialect pattern = (after, none)) :
    ∃ paths, Pattern.resolve space.tree space.base pattern = .ok paths ∧
      after.Accounts space (visits ++ paths.map (dialect, ·)) := by
  unfold addPattern at hrun
  split at hrun
  case h_1 => cases hrun
  case h_2 hpaths =>
    obtain ⟨rfl, -⟩ := Prod.mk.inj hrun
    refine ⟨[], hpaths, ?_⟩
    have hsilent : Event.announces ⟨.info, .aggregation, "No " ++ dialect.name ++
        " test report found for '" ++ pattern ++ "'"⟩ = false := by
      simp only [Event.announces, String.toList_append, List.append_assoc]
      rfl
    simpa using h.tell hsilent
  case h_3 paths _ hpaths => exact ⟨paths, hpaths, h.add_files hrun⟩

/-- A pattern only fails when it does not resolve or leads to a file that cannot be parsed by itself. -/
theorem add_pattern_error {dialect : Dialect} {pattern : String} {error : AggregateError}
    (hrun : addPattern space state dialect pattern = (after, some error)) :
    (∀ paths, Pattern.resolve space.tree space.base pattern ≠ .ok paths) ∨
      ∃ paths, Pattern.resolve space.tree space.base pattern = .ok paths ∧
        ∃ path ∈ paths, (space.parseAlone (dialect, path)).failure ≠ none := by
  unfold addPattern at hrun
  split at hrun
  case h_1 fault hfault =>
    refine .inl fun paths hpaths => ?_
    rw [hfault] at hpaths
    cases hpaths
  case h_2 => cases hrun
  case h_3 paths _ hpaths => exact .inr ⟨paths, hpaths, add_files_error hrun⟩

/-- Adding patterns without a fault accounts for what every one of them stands for. -/
theorem Accounts.add_patterns (h : state.Accounts space visits) {entries : List (Dialect × String)}
    (hrun : addPatterns space state entries = (after, none)) :
    (∀ entry ∈ entries, ∃ paths, Pattern.resolve space.tree space.base entry.2 = .ok paths) ∧
      ∃ more, after.Accounts space (visits ++ more) ∧ ∀ report : ReportFile, report ∈ more ↔
        ∃ entry ∈ entries, entry.1 = report.1 ∧ ∃ paths,
          Pattern.resolve space.tree space.base entry.2 = .ok paths ∧ report.2 ∈ paths := by
  induction entries generalizing state visits with
  | nil =>
      obtain ⟨rfl, -⟩ := Prod.mk.inj hrun
      exact ⟨by simp, [], by simpa using h, by simp⟩
  | cons entry rest ih =>
      obtain ⟨dialect, pattern⟩ := entry
      unfold addPatterns at hrun
      split at hrun
      case h_2 _ hfailed => exact absurd hrun (hfailed after)
      case h_1 next hnext =>
        obtain ⟨paths, hpaths, hfirst⟩ := h.add_pattern hnext
        obtain ⟨hothers, more, haccounts, hmore⟩ := ih hfirst hrun
        refine ⟨?_, paths.map (dialect, ·) ++ more, by simpa using haccounts, ?_⟩
        · intro other hother
          rcases List.mem_cons.mp hother with rfl | hother
          · exact ⟨paths, hpaths⟩
          · exact hothers other hother
        · intro report
          simp only [List.mem_append, List.mem_map, hmore, List.mem_cons, exists_eq_or_imp]
          refine or_congr_left ⟨?_, ?_⟩
          · rintro ⟨path, hpath, rfl⟩
            exact ⟨rfl, paths, hpaths, hpath⟩
          · rintro ⟨rfl, others, hothers, hpath⟩
            obtain rfl := Except.ok.inj (hothers.symm.trans hpaths)
            exact ⟨report.2, hpath, rfl⟩

/-- Patterns only fail through one that does not resolve or leads to a file that cannot be parsed by
itself. -/
theorem add_patterns_error {entries : List (Dialect × String)} {error : AggregateError}
    (hrun : addPatterns space state entries = (after, some error)) :
    ∃ entry ∈ entries, (∀ paths, Pattern.resolve space.tree space.base entry.2 ≠ .ok paths) ∨
      ∃ paths, Pattern.resolve space.tree space.base entry.2 = .ok paths ∧
        ∃ path ∈ paths, (space.parseAlone (entry.1, path)).failure ≠ none := by
  induction entries generalizing state with
  | nil => cases hrun
  | cons entry rest ih =>
      obtain ⟨dialect, pattern⟩ := entry
      unfold addPatterns at hrun
      split at hrun
      case h_1 next hnext =>
        obtain ⟨faulty, hmem, hfaulty⟩ := ih hrun
        exact ⟨faulty, List.mem_cons_of_mem _ hmem, hfaulty⟩
      case h_2 => exact ⟨(dialect, pattern), List.mem_cons_self, add_pattern_error hrun⟩

/-- A pattern that resolves to one path adds the file there. -/
theorem add_pattern_single (space : Workspace) (state : Aggregation) {dialect : Dialect} {path : Path}
    {pattern : String} (h : Pattern.resolve space.tree space.base pattern = .ok [path]) :
    addPattern space state dialect pattern = addFile space dialect state path := by
  unfold addPattern
  simp only [h, addFiles]
  split <;> simp_all

/-- A file that was seen does not fail. -/
theorem add_file_seen (space : Workspace) {dialect : Dialect} {path : Path} (h : state.hasSeen dialect path = true) :
    ∃ after, addFile space dialect state path = (after, none) := by
  unfold addFile
  rw [if_pos h]
  exact ⟨_, rfl⟩

/-- A new file that can be parsed by itself is kept as seen and does not fail. -/
theorem add_file_parsed {dialect : Dialect} {path : Path} (hnew : state.hasSeen dialect path = false)
    (hparsed : (space.parseAlone (dialect, path)).failure = none) :
    ∃ table events, addFile space dialect state path =
      (⟨(dialect, path) :: state.seen, table, events⟩, none) := by
  unfold Workspace.parseAlone at hparsed
  unfold addFile
  simp [hnew, hparsed]

/-- A new file that cannot be parsed by itself fails. -/
theorem add_file_failed {dialect : Dialect} {path : Path} (hnew : state.hasSeen dialect path = false)
    (hfailed : (space.parseAlone (dialect, path)).failure ≠ none) :
    ∃ after error, addFile space dialect state path = (after, some error) := by
  obtain ⟨fault, hfault⟩ := Option.ne_none_iff_exists'.mp hfailed
  unfold Workspace.parseAlone at hfault
  unfold addFile
  simp [hnew, hfault]

end Aggregation

/-- The patterns in order are those of the dialects. -/
theorem Reports.mem_to_list {reports : Reports} {entry : Dialect × String} :
    entry ∈ reports.toList ↔ entry.2 ∈ reports.patterns entry.1 := by
  obtain ⟨dialect, pattern⟩ := entry
  cases dialect <;> simp [toList, Dialect.all]

/-- A list of report files names each one that the configured patterns lead to, once. -/
structure Workspace.Lists (space : Workspace) (reports : Reports) (files : List ReportFile) : Prop where
  yielded : ∀ report ∈ files, space.Yields reports report
  complete : ∀ report, space.Yields reports report → ∃ file ∈ files, report.Same file
  distinct : files.Pairwise fun a b => ¬ ReportFile.Same a b

/-- An aggregation that succeeds has merged and announced the report files that the patterns lead to,
each of which can be parsed by itself. -/
theorem aggregate_ok {space : Workspace} {reports : Reports} {table : Table}
    (h : (aggregate space reports).1 = .ok table) :
    (∀ dialect, ∀ pattern ∈ reports.patterns dialect,
        ∃ paths, Pattern.resolve space.tree space.base pattern = .ok paths) ∧
      ∃ files, space.Lists reports files ∧
        (∀ report ∈ files, (space.parseAlone report).failure = none) ∧
        table = space.mergeAll files ∧
        (aggregate space reports).2.filter Event.announces = files.map ReportFile.opening := by
  unfold aggregate at h ⊢
  split at h
  case h_2 => cases h
  case h_1 state hrun =>
    obtain rfl := Except.ok.inj h
    obtain ⟨hresolved, visits, haccounts, hvisits⟩ :=
      Aggregation.initial_accounts.add_patterns hrun
    have hyields : ∀ report, report ∈ visits ↔ space.Yields reports report := by
      intro report
      rw [hvisits, Workspace.Yields]
      constructor
      · rintro ⟨⟨dialect, pattern⟩, hentry, rfl, hpaths⟩
        exact ⟨pattern, Reports.mem_to_list.mp hentry, hpaths⟩
      · rintro ⟨pattern, hpattern, hpaths⟩
        exact ⟨(report.1, pattern), Reports.mem_to_list.mpr hpattern, rfl, hpaths⟩
    rw [List.nil_append] at haccounts
    refine ⟨fun dialect pattern hpattern => hresolved (dialect, pattern) (Reports.mem_to_list.mpr hpattern),
      state.seen.reverse, ⟨?_, ?_, ?_⟩, ?_, haccounts.table_eq, haccounts.announced⟩
    · intro report hreport
      exact (hyields report).mp (haccounts.visited report (List.mem_reverse.mp hreport))
    · intro report hreport
      obtain ⟨kept, hkept, hsame⟩ := haccounts.covered report ((hyields report).mpr hreport)
      exact ⟨kept, List.mem_reverse.mpr hkept, hsame⟩
    · refine List.pairwise_reverse.mpr (haccounts.distinct.imp ?_)
      exact fun hne hsame => hne ⟨hsame.1.symm, hsame.2.symm⟩
    · intro report hreport
      exact haccounts.parsed report (List.mem_reverse.mp hreport)

/-- An aggregation that fails has met a pattern that does not stand for paths or a report that cannot be parsed by
itself. -/
theorem aggregate_error {space : Workspace} {reports : Reports} {error : AggregateError}
    (h : (aggregate space reports).1 = .error error) :
    (∃ dialect, ∃ pattern ∈ reports.patterns dialect,
        ∀ paths, Pattern.resolve space.tree space.base pattern ≠ .ok paths) ∨
      ∃ report, space.Yields reports report ∧ (space.parseAlone report).failure ≠ none := by
  unfold aggregate at h
  split at h
  case h_1 => cases h
  case h_2 state fault hrun =>
    obtain ⟨⟨dialect, pattern⟩, hentry, hfault⟩ := Aggregation.add_patterns_error hrun
    have hpattern := Reports.mem_to_list.mp hentry
    rcases hfault with hnone | ⟨paths, hpaths, path, hpath, hfault⟩
    · exact .inl ⟨dialect, pattern, hpattern, hnone⟩
    · exact .inr ⟨(dialect, path), ⟨pattern, hpattern, paths, hpaths, hpath⟩, hfault⟩

end TestMeasures
