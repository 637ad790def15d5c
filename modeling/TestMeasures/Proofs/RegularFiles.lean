import Mathlib.Data.List.Nodup
import TestMeasures.Proofs.ReportSet
import TestMeasures.Proofs.StraightPaths

/-!
# Regular files in an aggregation

A report file is told from others by the components of its path, while the system tells regular files apart
by where links and `..` lead. `aggregate_counts_regular_files` says what an aggregation counts in these
terms: each regular file that is reached, as often as it is spelled differently. Nothing is counted twice
where patterns lead straight down (`Workspace.Direct`), but a detour through a folder and back out of it is
enough for it (`detour_counts_twice`).
-/

namespace TestMeasures

namespace FileTree

variable {tree : FileTree} {follow : Place → List String → Except FileFault (Place × Node)}

/-- The regular file that a path leads to, as the names that lead to it from the working directory. -/
def regular? (tree : FileTree) (path : Path) : Option (List String) :=
  match tree.resolve path with
  | .ok (.inside names, .file _) => some names
  | _ => none

/-- A path names a regular file exactly when it leads to one in the tree. -/
theorem regular_eq_some_iff {path : Path} {names : List String} :
    tree.regular? path = some names ↔ ∃ bytes, tree.resolve path = .ok (.inside names, .file bytes) := by
  unfold regular?
  constructor
  · intro h
    split at h
    case h_1 found bytes hresolve => exact ⟨bytes, Option.some.inj h ▸ hresolve⟩
    case h_2 => cases h
  · rintro ⟨bytes, hresolve⟩
    rw [hresolve]

/-- A file that is walked to stands in the tree. -/
theorem node_of_walk
    (hfollow : ∀ place pieces found bytes, follow place pieces = .ok (found, .file bytes) →
      ∃ names, found = .inside names ∧ tree.node? names = some (.file bytes))
    {place found : Place} {pieces : List String} {bytes : List UInt8}
    (h : tree.walk follow place pieces = .ok (found, .file bytes)) :
    ∃ names, found = .inside names ∧ tree.node? names = some (.file bytes) := by
  induction pieces generalizing place with
  | nil => cases h
  | cons piece rest ih =>
      rcases walk_to_file h with ⟨next, hnext⟩ | ⟨-, ⟨-, hnode⟩ | ⟨start, target, htarget⟩⟩
      · exact ih hnext
      · exact hnode
      · exact hfollow _ _ _ _ htarget

/-- A walk that comes to a file has found it at its place in the tree. -/
theorem node_of_resolve_from (tree : FileTree) (links : Nat) :
    ∀ place pieces found bytes, tree.resolveFrom links place pieces = .ok (found, .file bytes) →
      ∃ names, found = .inside names ∧ tree.node? names = some (.file bytes) := by
  induction links with
  | zero =>
      intro place pieces found bytes h
      exact node_of_walk (fun _ _ _ _ h => by cases h) h
  | succ links ih =>
      intro place pieces found bytes h
      exact node_of_walk ih h

/-- A file that a path leads to stands in the tree. -/
theorem node_of_resolve {path : Path} {found : Place} {bytes : List UInt8}
    (h : tree.resolve path = .ok (found, .file bytes)) :
    ∃ names, found = .inside names ∧ tree.node? names = some (.file bytes) :=
  node_of_resolve_from tree linkLimit _ _ _ _ (walk_of_resolve h)

end FileTree

namespace Workspace

variable {space : Workspace} {reports : Reports} {files : List ReportFile}
  {report other : ReportFile} {source : Dialect × List String}

/-- The dialect of a report file and the regular file that its path leads to. -/
def source? (space : Workspace) (report : ReportFile) : Option (Dialect × List String) :=
  (space.tree.regular? report.2).map (report.1, ·)

/-- What a regular file of the tree counts in a dialect, parsed by itself. -/
def countsOf (space : Workspace) (source : Dialect × List String) : Counts :=
  match space.tree.node? source.2 with
  | some (.file bytes) =>
    (source.1.parse ⟨"/".intercalate source.2⟩ bytes space.map .empty).table.total
  | _ => 0

/-- Report files that lead to one regular file in one dialect are spelled with the same components. -/
def OneSpelling (space : Workspace) (reports : Reports) : Prop :=
  ∀ report other source, space.Yields reports report → space.Yields reports other →
    space.source? report = some source → space.source? other = some source → report.Same other

/-- The source of a report file is its dialect and the place that its path leads to. -/
theorem source_eq_some_iff :
    space.source? report = some source ↔
      report.1 = source.1 ∧ ∃ bytes, space.tree.resolve report.2 = .ok (.inside source.2, .file bytes) := by
  unfold source?
  rw [Option.map_eq_some_iff, ← FileTree.regular_eq_some_iff]
  constructor
  · rintro ⟨names, hnames, rfl⟩
    exact ⟨rfl, hnames⟩
  · rintro ⟨hdialect, hnames⟩
    exact ⟨source.2, hnames, by rw [hdialect]⟩

/-- A report file that is parsed without a fault leads to a regular file. -/
theorem source_of_parsed (h : (space.parseAlone report).failure = none) :
    ∃ source, space.source? report = some source := by
  unfold parseAlone Dialect.parseFile at h
  split at h
  case h_1 => cases h
  case h_2 found bytes hresolve =>
    obtain ⟨names, rfl, -⟩ := FileTree.node_of_resolve hresolve
    exact ⟨(report.1, names), source_eq_some_iff.mpr ⟨rfl, bytes, hresolve⟩⟩
  case h_3 => cases h

/-- What a report file counts is told by the regular file that it leads to. -/
theorem total_parse_alone (h : space.source? report = some source) :
    (space.parseAlone report).table.total = space.countsOf source := by
  obtain ⟨hdialect, bytes, hresolve⟩ := source_eq_some_iff.mp h
  obtain ⟨names, hnames, hnode⟩ := FileTree.node_of_resolve hresolve
  obtain rfl := Place.inside.inj hnames
  unfold parseAlone Dialect.parseFile countsOf
  rw [hresolve, hnode, hdialect]
  rfl

/-- A path that leads to a regular file is spelled so that the system finds it. -/
theorem spelled_of_source (h : space.source? report = some source) : report.Spelled := by
  obtain ⟨-, bytes, hresolve⟩ := source_eq_some_iff.mp h
  have hfile : space.tree.isFile report.2 = true := by rw [FileTree.isFile, hresolve]
  refine ⟨FileTree.ends_in_step_of_is_file hfile, Nat.not_lt.mp fun hlong => ?_⟩
  obtain ⟨fault, hfault⟩ := FileTree.resolve_of_long space.tree hlong
  rw [hresolve] at hfault
  cases hfault

/-- Two spellings of one report file that both lead to a regular file lead to the same one. -/
theorem source_congr (hsame : report.Same other) (h : space.source? report = some source)
    {source' : Dialect × List String} (h' : space.source? other = some source') : source = source' := by
  have hspelled := spelled_of_source h
  have hspelled' := spelled_of_source h'
  obtain ⟨hdialect, bytes, hresolve⟩ := source_eq_some_iff.mp h
  obtain ⟨hdialect', bytes', hresolve'⟩ := source_eq_some_iff.mp h'
  have hresolves := FileTree.resolve_eq_of_same space.tree hsame.2 hspelled.1 hspelled'.1 hspelled.2
    hspelled'.2
  rw [hresolve, hresolve'] at hresolves
  have hnames := Place.inside.inj (Prod.mk.inj (Except.ok.inj hresolves)).1
  exact Prod.ext (hdialect.symm.trans (hsame.1.trans hdialect')) hnames

/-- The total of merged report files is the sum of what each of them counts. -/
theorem total_merge_all (space : Workspace) (files : List ReportFile) :
    (space.mergeAll files).total =
      (files.map fun report => (space.parseAlone report).table.total).sum := by
  induction files using List.reverseRecOn with
  | nil => rfl
  | append_singleton before report ih =>
      rw [merge_all_append, Table.total_merge, ih, List.map_append, List.sum_append, List.map_singleton,
        List.sum_singleton]

/-- The regular files that report files lead to are those that the patterns reach. -/
theorem Lists.mem_sources_iff (h : space.Lists reports files)
    (hparsed : ∀ report ∈ files, (space.parseAlone report).failure = none) :
    source ∈ files.filterMap space.source? ↔
      ∃ report, space.Yields reports report ∧ space.source? report = some source := by
  rw [List.mem_filterMap]
  constructor
  · rintro ⟨report, hreport, hsource⟩
    exact ⟨report, h.yielded report hreport, hsource⟩
  · rintro ⟨report, hreport, hsource⟩
    obtain ⟨file, hfile, hsame⟩ := h.complete report hreport
    obtain ⟨source', hsource'⟩ := source_of_parsed (hparsed file hfile)
    obtain rfl := source_congr hsame hsource hsource'
    exact ⟨file, hfile, hsource'⟩

/-- Report files lead to different regular files exactly when none is spelled differently. -/
theorem Lists.nodup_sources_iff (h : space.Lists reports files)
    (hparsed : ∀ report ∈ files, (space.parseAlone report).failure = none) :
    (files.map space.source?).Nodup ↔ space.OneSpelling reports := by
  constructor
  · intro hnodup report other source hreport hother hsource hsource'
    obtain ⟨file, hfile, hsame⟩ := h.complete report hreport
    obtain ⟨file', hfile', hsame'⟩ := h.complete other hother
    obtain ⟨found, hfound⟩ := source_of_parsed (hparsed file hfile)
    obtain ⟨found', hfound'⟩ := source_of_parsed (hparsed file' hfile')
    obtain rfl := source_congr hsame hsource hfound
    obtain rfl := source_congr hsame' hsource' hfound'
    obtain rfl := List.inj_on_of_nodup_map hnodup hfile hfile' (hfound.trans hfound'.symm)
    exact ⟨hsame.1.trans hsame'.1.symm, hsame.2.trans hsame'.2.symm⟩
  · intro honce
    rw [List.Nodup, List.pairwise_map]
    refine h.distinct.imp_of_mem fun {file file'} hfile hfile' hne heq => hne ?_
    obtain ⟨source, hsource⟩ := source_of_parsed (hparsed file hfile)
    exact honce file file' source (h.yielded file hfile) (h.yielded file' hfile') hsource
      (heq.symm.trans hsource)

/-- The report files that the patterns lead to, one pattern after the other. -/
def yielded (space : Workspace) (reports : Reports) : List ReportFile :=
  reports.toList.flatMap fun entry =>
    ((Pattern.resolve space.tree space.base entry.2).toOption.getD []).map (entry.1, ·)

/-- The yielded report files are those that patterns yield. -/
theorem mem_yielded_iff : report ∈ space.yielded reports ↔ space.Yields reports report := by
  unfold yielded Yields
  rw [List.mem_flatMap]
  constructor
  · rintro ⟨⟨dialect, pattern⟩, hentry, hreport⟩
    obtain ⟨path, hpath, rfl⟩ := List.mem_map.mp hreport
    cases hpaths : Pattern.resolve space.tree space.base pattern with
    | error fault => simp [hpaths, Except.toOption] at hpath
    | ok paths =>
        exact ⟨pattern, Reports.mem_to_list.mp hentry, paths, hpaths, by
          simpa [hpaths, Except.toOption] using hpath⟩
  · rintro ⟨pattern, hpattern, paths, hpaths, hpath⟩
    refine ⟨(report.1, pattern), Reports.mem_to_list.mpr hpattern, List.mem_map.mpr ⟨report.2, ?_, rfl⟩⟩
    simpa [hpaths, Except.toOption] using hpath

instance : Decidable (space.Yields reports report) :=
  decidable_of_iff _ mem_yielded_iff

/-- Patterns lead straight down from a folder with a name, through a tree without links. -/
structure Direct (space : Workspace) (reports : Reports) : Prop where
  linkless : space.tree.Linkless
  named : space.tree.Named
  based : space.base.text ≠ ""
  descending : ∀ dialect, ∀ pattern ∈ reports.patterns dialect, Pattern.Descends pattern

/-- Where patterns lead straight down, every regular file has one spelling. -/
theorem Direct.one_spelling (h : space.Direct reports) : space.OneSpelling reports := by
  rintro report other source ⟨pattern, hpattern, paths, hpaths, hpath⟩
    ⟨pattern', hpattern', paths', hpaths', hpath'⟩ hsource hsource'
  obtain ⟨names, hbelow⟩ := Pattern.below_of_mem_resolve h.named h.based
    (h.descending _ _ hpattern) hpaths hpath
  obtain ⟨names', hbelow'⟩ := Pattern.below_of_mem_resolve h.named h.based
    (h.descending _ _ hpattern') hpaths' hpath'
  obtain ⟨hdialect, bytes, hresolve⟩ := source_eq_some_iff.mp hsource
  obtain ⟨hdialect', bytes', hresolve'⟩ := source_eq_some_iff.mp hsource'
  exact ⟨hdialect.trans hdialect'.symm,
    FileTree.components_eq_of_below h.linkless hbelow hbelow' hresolve hresolve'⟩

end Workspace

/-- An aggregation that succeeds has parsed report files that the patterns lead to, one for each path that
has its own components, and each leads to a regular file. Its total is the sum of what these regular files
count, which are those that the patterns reach in each dialect; and it counts each of them once exactly
when none is reached under different components, as is the case where patterns lead straight down. -/
theorem aggregate_counts_regular_files (space : Workspace) (reports : Reports) {table : Table}
    (h : (aggregate space reports).1 = .ok table) :
    ∃ (files : List ReportFile) (sources : List (Dialect × List String)), space.Lists reports files ∧
      (aggregate space reports).2.filter Event.announces = files.map ReportFile.opening ∧
      files.map space.source? = sources.map some ∧
      (∀ source, source ∈ sources ↔
        ∃ report, space.Yields reports report ∧ space.source? report = some source) ∧
      table.total = (sources.map space.countsOf).sum ∧
      (sources.Nodup ↔ space.OneSpelling reports) ∧
      (space.Direct reports → sources.Nodup) := by
  obtain ⟨-, files, hlists, hparsed, rfl, hannounced⟩ := aggregate_ok h
  have hsources : files.map space.source? = (files.filterMap space.source?).map some := by
    rw [List.map_filterMap_some_eq_filter_map_isSome]
    refine (List.filter_eq_self.mpr fun source hsource => ?_).symm
    obtain ⟨report, hreport, rfl⟩ := List.mem_map.mp hsource
    obtain ⟨source, hsource⟩ := Workspace.source_of_parsed (hparsed report hreport)
    rw [hsource]
    rfl
  have honce : (files.filterMap space.source?).Nodup ↔ space.OneSpelling reports := by
    rw [← hlists.nodup_sources_iff hparsed, hsources,
      List.nodup_map_iff (Option.some_injective _)]
  refine ⟨files, files.filterMap space.source?, hlists, hannounced, hsources,
    fun source => hlists.mem_sources_iff hparsed, ?_, honce,
    fun hdirect => honce.mpr hdirect.one_spelling⟩
  calc (space.mergeAll files).total
      = (files.map fun report => (space.parseAlone report).table.total).sum :=
        space.total_merge_all files
    _ = ((files.map space.source?).map fun source => (source.map space.countsOf).getD 0).sum := by
        rw [List.map_map]
        congr 1
        refine List.map_congr_left fun report hreport => ?_
        obtain ⟨source, hsource⟩ := Workspace.source_of_parsed (hparsed report hreport)
        rw [Function.comp_apply, hsource]
        exact Workspace.total_parse_alone hsource
    _ = ((files.filterMap space.source?).map space.countsOf).sum := by
        rw [hsources, List.map_map]
        rfl

/-- A report of one test in the working directory, next to a folder. -/
def singleTestSpace : Workspace where
  tree := ⟨[(["a.xml"], .file (Text.Utf8.encode
    "<assemblies><test name=\"N.C.m\" result=\"Pass\"/></assemblies>")), (["sub"], .folder)]⟩
  base := ⟨"."⟩
  map := .empty

/-- The tree with a single test has no links, and its patterns lead to it directly. -/
theorem single_test_direct : singleTestSpace.Direct { xunit := ["a.xml", "./*"] } where
  linkless := by simp [FileTree.Linkless, singleTestSpace]
  named := by
    intro entry hentry name hname
    rcases List.mem_pair.mp hentry with rfl | rfl <;> rw [List.mem_singleton.mp hname] <;>
      exact ⟨by decide, by decide, by decide, by decide⟩
  based := by decide
  descending := by
    intro dialect
    cases dialect <;> decide +kernel

/-- A report that is reached by its name and by a glob is counted once. -/
theorem overlap_counts_once :
    ∃ table, (aggregate singleTestSpace { xunit := ["a.xml", "./*"] }).1 = .ok table ∧
      singleTestSpace.Direct { xunit := ["a.xml", "./*"] } ∧
      table.total = singleTestSpace.countsOf (.xunit, ["a.xml"]) := by
  have hrun : (aggregate singleTestSpace { xunit := ["a.xml", "./*"] }).1 =
        .ok (Table.empty.add .unattributed { tests := 1 }) ∧
      (singleTestSpace.yielded { xunit := ["a.xml", "./*"] }).map singleTestSpace.source? =
        [some (.xunit, ["a.xml"]), some (.xunit, ["a.xml"])] := by
    decide +kernel
  obtain ⟨htable, hyielded⟩ := hrun
  obtain ⟨files, sources, -, -, -, hreached, htotal, -, hnodup⟩ :=
    aggregate_counts_regular_files singleTestSpace _ htable
  have hsources : sources = [(.xunit, ["a.xml"])] := by
    rw [← List.perm_singleton, List.perm_ext_iff_of_nodup (hnodup single_test_direct) (by simp)]
    intro source
    have hmem : some source ∈ (singleTestSpace.yielded { xunit := ["a.xml", "./*"] }).map
        singleTestSpace.source? ↔ source = (.xunit, ["a.xml"]) := by
      rw [hyielded]
      simp
    rw [hreached, List.mem_singleton, ← hmem, List.mem_map]
    simp only [Workspace.mem_yielded_iff]
  refine ⟨_, htable, single_test_direct, ?_⟩
  rw [htotal, hsources, List.map_singleton, List.sum_singleton]

/-- A report that is reached by its name and through the folder next to it is counted twice. -/
theorem detour_counts_twice :
    ∃ table, (aggregate singleTestSpace { xunit := ["a.xml", "sub/../a.xml"] }).1 = .ok table ∧
      table.total.tests = 1 + 1 ∧
      (∀ report, singleTestSpace.Yields { xunit := ["a.xml", "sub/../a.xml"] } report →
        singleTestSpace.source? report = some (.xunit, ["a.xml"])) ∧
      (singleTestSpace.countsOf (.xunit, ["a.xml"])).tests = 1 := by
  have hrun : (aggregate singleTestSpace { xunit := ["a.xml", "sub/../a.xml"] }).1 =
        .ok (Table.empty.add .unattributed { tests := 1 + 1 }) ∧
      (∀ report ∈ singleTestSpace.yielded { xunit := ["a.xml", "sub/../a.xml"] },
        singleTestSpace.source? report = some (.xunit, ["a.xml"])) ∧
      (singleTestSpace.countsOf (.xunit, ["a.xml"])).tests = 1 := by
    decide +kernel
  obtain ⟨htable, hyielded, hcounts⟩ := hrun
  exact ⟨_, htable, rfl, fun report hreport => hyielded report (Workspace.mem_yielded_iff.mpr hreport),
    hcounts⟩

end TestMeasures
