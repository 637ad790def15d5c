import TestMeasures.Proofs.Aggregation
import TestMeasures.Proofs.TableMerge

/-!
# Aggregation depends on the set of reports

However patterns overlap, an aggregation amounts to the distinct report files that they lead to
(`aggregate_merges_report_set`): it succeeds when each of them can be parsed by itself, and its table is
their merge in any order. This takes that every path is short enough for the system, since a path is told
from others by its components but opened under its text (`long_spelling_breaks_report_set`).
-/

namespace TestMeasures

/-- The dialect of a report file and the components of its path, which tell it from others. -/
def ReportFile.identity (report : ReportFile) : Dialect × List Path.Component :=
  (report.1, report.2.components)

/-- Two spellings are of the same report file exactly when their dialects and components agree. -/
theorem ReportFile.same_iff {a b : ReportFile} : a.Same b ↔ a.identity = b.identity := by
  simp [Same, identity]

/-- A spelling of a path under which the system finds what the path leads to. -/
def ReportFile.Spelled (report : ReportFile) : Prop :=
  Path.EndsInStep report.2.pieces ∧ report.2.text.utf8ByteSize ≤ FileTree.pathLimit

namespace Workspace

variable {space : Workspace} {reports others : Reports} {files : List ReportFile}

/-- Two spellings of one report file amount to the same table and are both faulty or both not. -/
theorem parse_alone_congr {report other : ReportFile} (hsame : report.Same other)
    (hreport : report.Spelled) (hother : other.Spelled) :
    (space.parseAlone report).table = (space.parseAlone other).table ∧
      ((space.parseAlone report).failure = none ↔ (space.parseAlone other).failure = none) := by
  obtain ⟨dialect, path⟩ := report
  obtain ⟨dialect', path'⟩ := other
  obtain ⟨rfl, hcomponents⟩ : dialect = dialect' ∧ path.components = path'.components := hsame
  have hresolve : space.tree.resolve path = space.tree.resolve path' :=
    FileTree.resolve_eq_of_same space.tree hcomponents hreport.1 hother.1 hreport.2 hother.2
  unfold parseAlone Dialect.parseFile
  rw [hresolve]
  cases space.tree.resolve path' with
  | error fault => simp
  | ok found =>
      obtain ⟨place, node⟩ := found
      cases node with
      | file bytes => simp [Dialect.parse, Account.addTo]
      | folder | link => simp

/-- The answers of a merge are the sums of the answers of its parts. -/
theorem get_merge_all (space : Workspace) (files : List ReportFile) (key : ResultKey) :
    (space.mergeAll files).get? key =
      (files.map fun report => (space.parseAlone report).table.get? key).foldl
        (Option.merge (· + ·)) none := by
  rcases List.eq_nil_or_concat files with rfl | ⟨before, report, rfl⟩
  · rfl
  · rw [List.concat_eq_append, merge_all_append, Table.get_merge, get_merge_all space before,
      List.map_append, List.foldl_append]
    rfl
termination_by files.length

/-- Merging depends on which report files are merged, not on their order or spelling. -/
theorem merge_all_agrees {files files' : List ReportFile}
    (hfiles : ∀ report ∈ files, report.Spelled) (hfiles' : ∀ report ∈ files', report.Spelled)
    (hperm : (files.map ReportFile.identity).Perm (files'.map ReportFile.identity)) :
    (space.mergeAll files).agrees (space.mergeAll files') = true := by
  rw [Table.agrees_iff]
  intro key
  -- What a report file answers is read off one spelling of its identity, chosen once for both lists.
  classical
  let answer (identity : Dialect × List Path.Component) : Option Counts :=
    if h : ∃ report : ReportFile, report.Spelled ∧ report.identity = identity then
      (space.parseAlone h.choose).table.get? key
    else none
  have hanswer : ∀ report : ReportFile, report.Spelled →
      (space.parseAlone report).table.get? key = answer report.identity := by
    intro report hreport
    have hex : ∃ other : ReportFile, other.Spelled ∧ other.identity = report.identity :=
      ⟨report, hreport, rfl⟩
    have hsame : report.Same hex.choose :=
      ReportFile.same_iff.mpr hex.choose_spec.2.symm
    simp only [answer, dif_pos hex]
    rw [(parse_alone_congr hsame hreport hex.choose_spec.1).1]
  have hmap : ∀ list : List ReportFile, (∀ report ∈ list, report.Spelled) →
      (list.map fun report => (space.parseAlone report).table.get? key) =
        (list.map ReportFile.identity).map answer := by
    intro list hlist
    rw [List.map_map]
    exact List.map_congr_left fun report hreport => hanswer report (hlist report hreport)
  rw [get_merge_all, get_merge_all, hmap files hfiles, hmap files' hfiles']
  exact (hperm.map answer).foldl_eq none

/-- The identities of a list of report files are those of what the patterns lead to. -/
theorem Lists.mem_identity_iff (h : space.Lists reports files) (identity : Dialect × List Path.Component) :
    identity ∈ files.map ReportFile.identity ↔
      ∃ report, space.Yields reports report ∧ report.identity = identity := by
  rw [List.mem_map]
  constructor
  · rintro ⟨report, hreport, rfl⟩
    exact ⟨report, h.yielded report hreport, rfl⟩
  · rintro ⟨report, hreport, rfl⟩
    obtain ⟨file, hfile, hsame⟩ := h.complete report hreport
    exact ⟨file, hfile, (ReportFile.same_iff.mp hsame).symm⟩

/-- Any two lists of the report files of the same patterns name the same ones. -/
theorem Lists.perm {files' : List ReportFile} (h : space.Lists reports files)
    (h' : space.Lists reports files') :
    (files.map ReportFile.identity).Perm (files'.map ReportFile.identity) := by
  have hnodup : ∀ {list}, space.Lists reports list → (list.map ReportFile.identity).Nodup := by
    intro list hlist
    rw [List.Nodup, List.pairwise_map]
    exact hlist.distinct.imp fun hne heq => hne (ReportFile.same_iff.mpr heq)
  rw [List.perm_ext_iff_of_nodup (hnodup h) (hnodup h')]
  intro identity
  rw [h.mem_identity_iff, h'.mem_identity_iff]

/-- What patterns lead to is spelled so that the system finds it, where names are names of files and paths
are short. -/
theorem Yields.spelled (hnames : space.tree.Named) {report : ReportFile}
    (hlength : report.2.text.utf8ByteSize ≤ FileTree.pathLimit) (h : space.Yields reports report) :
    report.Spelled := by
  obtain ⟨pattern, -, paths, hpaths, hpath⟩ := h
  exact ⟨Pattern.ends_in_step_of_mem_resolve hnames hpaths hpath, hlength⟩

/-- Every path that the patterns lead to, and that of every folder that is opened on the way, is short enough for
the system. -/
structure ShortPaths (space : Workspace) (reports : Reports) : Prop where
  yielded : ∀ report, space.Yields reports report → report.2.text.utf8ByteSize ≤ FileTree.pathLimit
  opened : ∀ dialect, ∀ pattern ∈ reports.patterns dialect,
    ∀ folder ∈ Pattern.opened space.tree space.base pattern, folder.text.utf8ByteSize ≤ FileTree.pathLimit

/-- Over short paths, a pattern comes to files exactly when its glob can be read. -/
theorem ShortPaths.resolve_ok_iff (h : space.ShortPaths reports) {dialect : Dialect} {pattern : String}
    (hpattern : pattern ∈ reports.patterns dialect) :
    (∃ paths, Pattern.resolve space.tree space.base pattern = .ok paths) ↔ Pattern.IsValid pattern :=
  (Pattern.resolve_ok_iff pattern).trans (and_iff_left (h.opened dialect pattern hpattern))

/-- Other patterns cover the same reports: they contain the given ones, in any order and any number of
times, and every further one stands for nothing but short spellings of report files that the given ones
lead to. -/
structure Covers (space : Workspace) (reports others : Reports) : Prop where
  kept : ∀ dialect, ∀ pattern ∈ reports.patterns dialect, pattern ∈ others.patterns dialect
  covered : ∀ dialect, ∀ pattern ∈ others.patterns dialect, pattern ∈ reports.patterns dialect ∨
    ∃ paths, Pattern.resolve space.tree space.base pattern = .ok paths ∧
      ∀ path ∈ paths, path.text.utf8ByteSize ≤ FileTree.pathLimit ∧
        ∃ report, space.Yields reports report ∧ ReportFile.Same (dialect, path) report

/-- Patterns with the same members cover the same reports. -/
theorem Covers.of_mem_iff
    (h : ∀ dialect pattern, pattern ∈ others.patterns dialect ↔ pattern ∈ reports.patterns dialect) :
    space.Covers reports others where
  kept dialect pattern := (h dialect pattern).mpr
  covered dialect pattern hpattern := .inl ((h dialect pattern).mp hpattern)

/-- Patterns that cover the reports yield whatever those yield. -/
theorem Covers.yields (h : space.Covers reports others) {report : ReportFile}
    (hreport : space.Yields reports report) : space.Yields others report := by
  obtain ⟨pattern, hpattern, hpaths⟩ := hreport
  exact ⟨pattern, h.kept _ _ hpattern, hpaths⟩

/-- What covering patterns lead to is a spelling of what the given ones lead to. -/
theorem Covers.same (h : space.Covers reports others) {report : ReportFile}
    (hreport : space.Yields others report) :
    ∃ given, space.Yields reports given ∧ report.Same given := by
  obtain ⟨pattern, hpattern, paths, hpaths, hpath⟩ := hreport
  rcases h.covered _ _ hpattern with hgiven | ⟨paths', hpaths', hcovered⟩
  · exact ⟨report, ⟨pattern, hgiven, paths, hpaths, hpath⟩, rfl, rfl⟩
  · obtain rfl := Except.ok.inj (hpaths.symm.trans hpaths')
    exact (hcovered _ hpath).2

/-- What covers short paths has short paths: a further pattern that comes to files has had every folder on the
way opened. -/
theorem Covers.short_paths (h : space.Covers reports others) (hshort : space.ShortPaths reports) :
    space.ShortPaths others where
  yielded report hreport := by
    obtain ⟨pattern, hpattern, paths, hpaths, hpath⟩ := hreport
    rcases h.covered _ _ hpattern with hgiven | ⟨paths', hpaths', hcovered⟩
    · exact hshort.yielded report ⟨pattern, hgiven, paths, hpaths, hpath⟩
    · obtain rfl := Except.ok.inj (hpaths.symm.trans hpaths')
      exact (hcovered _ hpath).1
  opened dialect pattern hpattern := by
    rcases h.covered _ _ hpattern with hgiven | ⟨paths, hpaths, -⟩
    · exact hshort.opened dialect pattern hgiven
    · exact ((Pattern.resolve_ok_iff pattern).mp ⟨paths, hpaths⟩).2

/-- Patterns that cover the reports are valid exactly when those are. -/
theorem Covers.valid_iff (h : space.Covers reports others) :
    (∀ dialect, ∀ pattern ∈ others.patterns dialect, Pattern.IsValid pattern) ↔
      ∀ dialect, ∀ pattern ∈ reports.patterns dialect, Pattern.IsValid pattern := by
  constructor
  · exact fun hothers dialect pattern hpattern => hothers dialect pattern (h.kept _ _ hpattern)
  · intro hreports dialect pattern hpattern
    rcases h.covered _ _ hpattern with hgiven | ⟨paths, hpaths, -⟩
    · exact hreports dialect pattern hgiven
    · exact ((Pattern.resolve_ok_iff pattern).mp ⟨paths, hpaths⟩).1

/-- Every list of the given report files is one of the covering ones. -/
theorem Covers.lists (h : space.Covers reports others) (hfiles : space.Lists reports files) :
    space.Lists others files where
  yielded report hreport := h.yields (hfiles.yielded report hreport)
  complete report hreport := by
    obtain ⟨given, hgiven, hsame⟩ := h.same hreport
    obtain ⟨file, hfile, hsame'⟩ := hfiles.complete given hgiven
    exact ⟨file, hfile, hsame.1.trans hsame'.1, hsame.2.trans hsame'.2⟩
  distinct := hfiles.distinct

end Workspace

open Workspace (ShortPaths)

variable {space : Workspace} {reports : Reports}

/-- An aggregation succeeds exactly when its globs can be read and what they lead to can be parsed, each
report file by itself. -/
theorem aggregate_ok_iff (hnames : space.tree.Named) (hshort : space.ShortPaths reports) :
    (∃ table, (aggregate space reports).1 = .ok table) ↔
      (∀ dialect, ∀ pattern ∈ reports.patterns dialect, Pattern.IsValid pattern) ∧
        ∀ report, space.Yields reports report → (space.parseAlone report).failure = none := by
  constructor
  · rintro ⟨table, htable⟩
    obtain ⟨hresolved, files, hfiles, hparsed, -, -⟩ := aggregate_ok htable
    refine ⟨fun dialect pattern hpattern => (hshort.resolve_ok_iff hpattern).mp (hresolved dialect pattern hpattern),
      fun report hreport => ?_⟩
    obtain ⟨file, hfile, hsame⟩ := hfiles.complete report hreport
    have hyields := hfiles.yielded file hfile
    exact (Workspace.parse_alone_congr hsame (hreport.spelled hnames (hshort.yielded _ hreport))
      (hyields.spelled hnames (hshort.yielded _ hyields))).2.mpr (hparsed file hfile)
  · rintro ⟨hvalid, hparsed⟩
    cases hresult : (aggregate space reports).1 with
    | ok table => exact ⟨table, rfl⟩
    | error fault =>
        rcases aggregate_error hresult with ⟨dialect, pattern, hpattern, hnone⟩ | ⟨report, hreport, hfault⟩
        · obtain ⟨paths, hpaths⟩ := (hshort.resolve_ok_iff hpattern).mpr (hvalid dialect pattern hpattern)
          exact absurd hpaths (hnone paths)
        · exact absurd (hparsed report hreport) hfault

/-- The table of an aggregation is the merge of the report files that its patterns lead to. -/
theorem aggregate_agrees_merge (hnames : space.tree.Named) (hshort : space.ShortPaths reports)
    {table : Table} (h : (aggregate space reports).1 = .ok table) {files : List ReportFile}
    (hfiles : space.Lists reports files) : table.agrees (space.mergeAll files) = true := by
  obtain ⟨-, merged, hmerged, -, rfl, -⟩ := aggregate_ok h
  have hspelled : ∀ {list}, space.Lists reports list → ∀ report ∈ list, report.Spelled := by
    intro list hlist report hreport
    have hyields := hlist.yielded report hreport
    exact hyields.spelled hnames (hshort.yielded report hyields)
  exact Workspace.merge_all_agrees (hspelled hmerged) (hspelled hfiles) (hmerged.perm hfiles)

/-- Two aggregations come to the same: both fail, or both succeed with tables that agree. -/
def SameResult : Except AggregateError Table → Except AggregateError Table → Prop
  | .ok table, .ok other => table.agrees other = true
  | .error _, .error _ => True
  | _, _ => False

/-- However the patterns overlap, an aggregation over short paths succeeds exactly when every glob can be
read and every report file that they lead to can be parsed by itself. Its table is then the merge of the
distinct report files, listed in any order under any spelling, each of which is announced once; and
patterns that cover the same reports come to the same result. -/
theorem aggregate_merges_report_set (space : Workspace) (reports : Reports)
    (hnames : space.tree.Named) (hshort : space.ShortPaths reports) :
    ((∃ table, (aggregate space reports).1 = .ok table) ↔
      (∀ dialect, ∀ pattern ∈ reports.patterns dialect, Pattern.IsValid pattern) ∧
        ∀ report, space.Yields reports report → (space.parseAlone report).failure = none) ∧
    (∀ table, (aggregate space reports).1 = .ok table →
      (∀ files, space.Lists reports files → table.agrees (space.mergeAll files) = true) ∧
        ∃ files, space.Lists reports files ∧
          (aggregate space reports).2.filter Event.announces = files.map ReportFile.opening) ∧
    ∀ others : Reports, space.Covers reports others →
      SameResult (aggregate space reports).1 (aggregate space others).1 := by
  refine ⟨aggregate_ok_iff hnames hshort, fun table htable => ⟨fun files hfiles => ?_, ?_⟩,
    fun others hcovers => ?_⟩
  · exact aggregate_agrees_merge hnames hshort htable hfiles
  · obtain ⟨-, files, hfiles, -, -, hannounced⟩ := aggregate_ok htable
    exact ⟨files, hfiles, hannounced⟩
  · have hshort' := hcovers.short_paths hshort
    have hok : (∃ table, (aggregate space reports).1 = .ok table) ↔
        ∃ table, (aggregate space others).1 = .ok table := by
      rw [aggregate_ok_iff hnames hshort, aggregate_ok_iff hnames hshort', hcovers.valid_iff]
      refine and_congr_right fun _ => ⟨fun h report hreport => ?_, fun h report hreport => ?_⟩
      · obtain ⟨given, hgiven, hsame⟩ := hcovers.same hreport
        exact (Workspace.parse_alone_congr hsame (hreport.spelled hnames (hshort'.yielded _ hreport))
          (hgiven.spelled hnames (hshort.yielded _ hgiven))).2.mpr (h given hgiven)
      · exact h report (hcovers.yields hreport)
    cases hresult : (aggregate space reports).1 with
    | error fault =>
        cases hresult' : (aggregate space others).1 with
        | error fault' => trivial
        | ok table' =>
            obtain ⟨table, htable⟩ := hok.mpr ⟨table', hresult'⟩
            rw [hresult] at htable
            cases htable
    | ok table =>
        obtain ⟨table', hresult'⟩ := hok.mp ⟨table, hresult⟩
        obtain ⟨-, files, hfiles, -, -, -⟩ := aggregate_ok hresult
        rw [hresult']
        have hleft := Table.agrees_iff.mp
          (aggregate_agrees_merge hnames hshort hresult hfiles)
        have hright := Table.agrees_iff.mp
          (aggregate_agrees_merge hnames hshort' hresult' (hcovers.lists hfiles))
        exact Table.agrees_iff.mpr fun key => (hleft key).trans (hright key).symm

/-- A report in the working directory, which patterns start from under a slashed spelling. -/
def slashedSpace (slashes : Nat) : Workspace :=
  ⟨⟨[(["a.xml"], .file (Text.Utf8.encode "<assemblies/>"))]⟩, Path.slashed slashes, .empty⟩

namespace SlashedSpace

variable (slashes : Nat)

/-- The path of the report by its name. -/
def plainPath : Path :=
  (Path.slashed slashes).join ⟨"a.xml"⟩

/-- The path of the report as a glob finds it in `.`. -/
def globbedPath : Path :=
  ((Path.slashed slashes).join ⟨"."⟩).join ⟨"a.xml"⟩

/-- The path that the glob finds goes on behind the slashes of the working directory. -/
theorem globbed_text : (globbedPath slashes).text = (Path.slashed slashes).text ++ "./a.xml" := by
  unfold globbedPath
  rw [Path.slashed_join slashes rfl]
  unfold Path.join
  rw [if_neg (by simp [Path.isAbsolute]), if_neg (by simp)]
  simp [String.append_assoc]

/-- Both paths of the report have the same components. -/
theorem components_eq : (plainPath slashes).components = (globbedPath slashes).components := by
  have hglobbed : globbedPath slashes = ⟨(Path.slashed slashes).text ++ "./a.xml"⟩ := by
    rw [← globbed_text]
  unfold plainPath
  rw [hglobbed, Path.slashed_join slashes rfl, Path.slashed_components, Path.slashed_components]
  rfl

/-- The plain path leads to the report as long as it fits the limit. -/
theorem resolve_plain (hlength : slashes + 7 ≤ FileTree.pathLimit) :
    (slashedSpace slashes).tree.resolve (plainPath slashes) =
      .ok (.inside ["a.xml"], .file (Text.Utf8.encode "<assemblies/>")) := by
  have hname : (Path.mk "a.xml").pieces = ["a.xml"] := rfl
  unfold plainPath
  rw [Path.slashed_join slashes rfl, FileTree.resolve_slashed _ ⟨[], "a.xml", hname, rfl⟩ hlength]
  exact of_decide_eq_true rfl

/-- The name of the report resolves to its plain path. -/
theorem pattern_plain (hlength : slashes + 7 ≤ FileTree.pathLimit) :
    Pattern.resolve (slashedSpace slashes).tree (slashedSpace slashes).base "a.xml" =
      .ok [plainPath slashes] := by
  have hfile : (slashedSpace slashes).tree.isFile (plainPath slashes) = true := by
    rw [FileTree.isFile, resolve_plain slashes hlength]
  unfold plainPath at hfile ⊢
  have hbase : (slashedSpace slashes).base = Path.slashed slashes := rfl
  rw [Pattern.resolve_of_name _ _ (by decide), hbase, if_pos hfile]

/-- The glob resolves to the path that it finds the report under. -/
theorem pattern_glob (hlength : slashes + 3 ≤ FileTree.pathLimit) :
    Pattern.resolve (slashedSpace slashes).tree (slashedSpace slashes).base "./*" =
      .ok [globbedPath slashes] := by
  have hresolve : (slashedSpace slashes).tree.resolve ((Path.slashed slashes).join ⟨"."⟩) =
      .ok (.inside [], .folder) := by
    rw [Path.slashed_join slashes rfl]
    exact FileTree.resolve_slashed_folder _ hlength
  have hfolder : (slashedSpace slashes).tree.isFolder ((Path.slashed slashes).join ⟨"."⟩) = true := by
    rw [FileTree.isFolder, hresolve]
  have hfiles : (slashedSpace slashes).tree.filesBelow ((Path.slashed slashes).join ⟨"."⟩) =
      [["a.xml"]] := by
    rw [FileTree.filesBelow, hresolve]
    rfl
  have hfolder' : Pattern.searchFolder (slashedSpace slashes).base "./*" = (Path.slashed slashes).join ⟨"."⟩ := rfl
  have hglob : Glob.parse (Pattern.globPart "./*") = .ok [.star] := rfl
  have hopened : (slashedSpace slashes).tree.unopened? ((Path.slashed slashes).join ⟨"."⟩) = none := by
    rw [FileTree.unopened?, FileTree.foldersBelow, hresolve]
    rfl
  have hmatch : Glob.isMatch [.star] "a.xml" = true := rfl
  have hmatches : Pattern.matchesBelow (slashedSpace slashes).tree ((Path.slashed slashes).join ⟨"."⟩) [.star] =
      [globbedPath slashes] := by
    rw [Pattern.matchesBelow, hfiles,
      List.filter_cons_of_pos (by rw [String.intercalate_singleton]; exact hmatch)]
    rfl
  rw [Pattern.resolve_of_glob _ _ (by decide), hglob, hfolder']
  simp only [if_pos hfolder, hopened, hmatches]

/-- The report can be parsed under its plain path. -/
theorem plain_parses (hlength : slashes + 7 ≤ FileTree.pathLimit) :
    ((slashedSpace slashes).parseAlone (.xunit, plainPath slashes)).failure = none := by
  have hfault : (Dialect.account .xunit
      (Reading.ofBytes (Text.Utf8.encode "<assemblies/>"))).fault = none := by
    decide +kernel
  unfold Workspace.parseAlone Dialect.parseFile
  simp only [resolve_plain slashes hlength, Dialect.parse, Account.addTo, hfault, Option.map_none]

/-- The report cannot be read under the path of the glob once that no longer fits the limit. -/
theorem globbed_fails (hlong : FileTree.pathLimit < slashes + 9) :
    ((slashedSpace slashes).parseAlone (.xunit, globbedPath slashes)).failure ≠ none := by
  have hsize : FileTree.pathLimit < (globbedPath slashes).text.utf8ByteSize := by
    rw [globbed_text, String.utf8ByteSize_append, Path.slashed_size]
    exact hlong
  obtain ⟨fault, hfault⟩ := FileTree.resolve_of_long (slashedSpace slashes).tree hsize
  unfold Workspace.parseAlone Dialect.parseFile
  simp [hfault]

/-- With the name in front, the spelling that the glob finds counts as seen. -/
theorem name_first_succeeds (hlength : slashes + 7 ≤ FileTree.pathLimit) :
    ∃ table, (aggregate (slashedSpace slashes) { xunit := ["a.xml", "./*"] }).1 = .ok table := by
  have hlist : Reports.toList { xunit := ["a.xml", "./*"] } =
      [(.xunit, "a.xml"), (.xunit, "./*")] := rfl
  have hnew : Aggregation.initial.hasSeen .xunit (plainPath slashes) = false := rfl
  obtain ⟨table, events, hfirst⟩ := Aggregation.add_file_parsed hnew (plain_parses slashes hlength)
  have hseen : (Aggregation.mk [(.xunit, plainPath slashes)] table events).hasSeen .xunit
      (globbedPath slashes) = true :=
    Aggregation.has_seen_iff.mpr
      ⟨(.xunit, plainPath slashes), by simp, rfl, (components_eq slashes).symm⟩
  obtain ⟨after, hsecond⟩ := Aggregation.add_file_seen (slashedSpace slashes) hseen
  refine ⟨after.table, ?_⟩
  unfold aggregate
  rw [hlist, Aggregation.addPatterns,
    Aggregation.add_pattern_single _ _ (pattern_plain slashes hlength), hfirst]
  simp only
  rw [Aggregation.addPatterns, Aggregation.add_pattern_single _ _ (pattern_glob slashes (by omega))]
  simp only [Aggregation.initial, hsecond, Aggregation.addPatterns]

/-- With the glob in front, the aggregation fails once its path no longer fits the limit. -/
theorem glob_first_fails (hlength : slashes + 3 ≤ FileTree.pathLimit)
    (hlong : FileTree.pathLimit < slashes + 9) (table : Table) :
    (aggregate (slashedSpace slashes) { xunit := ["./*", "a.xml"] }).1 ≠ .ok table := by
  have hlist : Reports.toList { xunit := ["./*", "a.xml"] } =
      [(.xunit, "./*"), (.xunit, "a.xml")] := rfl
  have hnew : Aggregation.initial.hasSeen .xunit (globbedPath slashes) = false := rfl
  obtain ⟨after, error, hfirst⟩ := Aggregation.add_file_failed hnew (globbed_fails slashes hlong)
  unfold aggregate
  rw [hlist, Aggregation.addPatterns,
    Aggregation.add_pattern_single _ _ (pattern_glob slashes hlength), hfirst]
  simp

/-- The patterns yield the report under the path of the glob. -/
theorem yields_globbed (hlength : slashes + 3 ≤ FileTree.pathLimit) :
    (slashedSpace slashes).Yields { xunit := ["a.xml", "./*"] } (.xunit, globbedPath slashes) :=
  ⟨"./*", by simp [Reports.patterns], _, pattern_glob slashes hlength, List.mem_singleton_self _⟩

/-- The names in the tree are those of files. -/
theorem named : (slashedSpace slashes).tree.Named := by
  intro entry hentry name hname
  rw [List.mem_singleton.mp hentry] at hname
  rw [List.mem_singleton.mp hname]
  exact ⟨by decide, by decide, by decide, by decide⟩

/-- The paths of the patterns are short as long as the path of the glob is. -/
theorem short_paths (hlength : slashes + 9 ≤ FileTree.pathLimit) :
    (slashedSpace slashes).ShortPaths { xunit := ["a.xml", "./*"] } where
  yielded := by
    rintro ⟨dialect, path⟩ ⟨pattern, hpattern, paths, hpaths, hpath⟩
    cases dialect with
    | xunit =>
        rcases List.mem_pair.mp hpattern with rfl | rfl
        · obtain rfl := Except.ok.inj ((pattern_plain slashes (by omega)).symm.trans hpaths)
          rw [List.mem_singleton.mp hpath, plainPath, Path.slashed_join slashes rfl,
            String.utf8ByteSize_append, Path.slashed_size]
          exact (Nat.le_add_right _ 2).trans hlength
        · obtain rfl := Except.ok.inj ((pattern_glob slashes (by omega)).symm.trans hpaths)
          rw [List.mem_singleton.mp hpath, globbed_text, String.utf8ByteSize_append, Path.slashed_size]
          exact hlength
    | nunit | vstest => cases hpattern
  opened dialect pattern hpattern := by
    cases dialect with
    | xunit =>
        rcases List.mem_pair.mp hpattern with rfl | rfl
        · exact ((Pattern.resolve_ok_iff _).mp ⟨_, pattern_plain slashes (by omega)⟩).2
        · exact ((Pattern.resolve_ok_iff _).mp ⟨_, pattern_glob slashes (by omega)⟩).2
    | nunit | vstest => cases hpattern

end SlashedSpace

/-- Patterns that overlap in short paths come to the same result in any order. -/
theorem short_spellings_merge :
    (slashedSpace 0).tree.Named ∧ (slashedSpace 0).ShortPaths { xunit := ["a.xml", "./*"] } ∧
    (∃ table, (aggregate (slashedSpace 0) { xunit := ["a.xml", "./*"] }).1 = .ok table) ∧
    SameResult (aggregate (slashedSpace 0) { xunit := ["a.xml", "./*"] }).1
      (aggregate (slashedSpace 0) { xunit := ["./*", "a.xml"] }).1 := by
  have hnames := SlashedSpace.named 0
  have hshort := SlashedSpace.short_paths 0 (by decide)
  have hcovers : (slashedSpace 0).Covers { xunit := ["a.xml", "./*"] }
      { xunit := ["./*", "a.xml"] } := by
    refine .of_mem_iff fun dialect pattern => ?_
    cases dialect <;> simp [Reports.patterns, or_comm]
  have hmerges := aggregate_merges_report_set (slashedSpace 0) _ hnames hshort
  exact ⟨hnames, hshort, SlashedSpace.name_first_succeeds 0 (by decide), hmerges.2.2 _ hcovers⟩

/-- With a path that is too long for the system among what the patterns lead to, an aggregation succeeds
although a report file cannot be parsed by itself, and fails once the patterns change places. -/
theorem long_spelling_breaks_report_set :
    (∃ table, (aggregate (slashedSpace 4087) { xunit := ["a.xml", "./*"] }).1 = .ok table) ∧
    (∃ report, (slashedSpace 4087).Yields { xunit := ["a.xml", "./*"] } report ∧
      ((slashedSpace 4087).parseAlone report).failure ≠ none) ∧
    ∀ table, (aggregate (slashedSpace 4087) { xunit := ["./*", "a.xml"] }).1 ≠ .ok table := by
  have hlong : FileTree.pathLimit < 4087 + 9 := by decide
  have hlength : 4087 + 7 ≤ FileTree.pathLimit := by decide
  have hfolder : 4087 + 3 ≤ FileTree.pathLimit := by decide
  exact ⟨SlashedSpace.name_first_succeeds 4087 hlength,
    ⟨_, SlashedSpace.yields_globbed 4087 hfolder, SlashedSpace.globbed_fails 4087 hlong⟩,
    SlashedSpace.glob_first_fails 4087 hfolder hlong⟩

end TestMeasures
