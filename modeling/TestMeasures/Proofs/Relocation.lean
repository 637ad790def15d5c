import TestMeasures.Proofs.LanguageIsolation
import TestMeasures.Proofs.MovedConfig
import TestMeasures.Proofs.MovedReports
import TestMeasures.Proofs.WrittenSummary

/-!
# A run in a tree that is moved

When everything is moved below new folders, with the configuration and the method map, a run comes to the
same (`Command.moved_run_comes_to_same`): no path that it looks at may lead out of the tree, and none may
get longer than the system takes. The second condition is needed (`Command.moved_map_too_long`).
-/

namespace TestMeasures.Command

/-- Options with the configuration and the method map where they are once the tree is moved. -/
def Options.movedBelow (folders : List String) (options : Options) : Options :=
  { options with
    config := (Path.ofFolders folders).join options.config
    methodMap := options.methodMap.map (Path.ofFolders folders).join }

/-- The paths that the patterns of a setup are looked up at. -/
def Setup.lookups (tree : FileTree) (setup : Setup) : List Path :=
  setup.config.languages.flatMap fun entry =>
    entry.reports.toList.flatMap fun report => Pattern.lookups tree setup.config.baseDir report.2

/-- The paths that a run looks at: for its configuration, for its method map and, once it is set up, for its
reports, with the folders that are opened to find them. -/
def lookups (tree : FileTree) (options : Options) : List Path :=
  ImportConfig.lookups tree options.config ++ options.methodMap.toList ++
    (Setup.load tree options).1.toOption.toList.flatMap (Setup.lookups tree)

/-- What a setup comes to: how every language ended, the measures and the warnings. -/
def Setup.results (tree : FileTree) (project : String) (setup : Setup) :
    List (Language × ImportOutcome) × Session :=
  ((setup.import tree project).languages, (setup.import tree project).session)

/-- What a run comes to, if it can be set up. -/
def results (tree : FileTree) (options : Options) : Option (List (Language × ImportOutcome) × Session) :=
  (Setup.load tree options).1.toOption.map (Setup.results tree options.project)

variable {tree tree' : FileTree} {options options' : Options} {folders : List String}

/-- What a run writes and how it exits is told by what it comes to. -/
theorem run_of_results (hformat : options'.format = options.format) (hproject : options'.project = options.project)
    (h : results tree' options' = results tree options) (colored : Bool) (outlet : Outlet) :
    (run tree' options' colored outlet).exitCode = (run tree options colored outlet).exitCode ∧
      (run tree' options' colored outlet).written = (run tree options colored outlet).written := by
  unfold results at h
  cases hload : Setup.load tree options with
  | mk loaded events =>
      cases hload' : Setup.load tree' options' with
      | mk loaded' events' =>
          rw [hload, hload'] at h
          cases loaded with
          | error error =>
              cases loaded' with
              | ok setup' => cases h
              | error error' =>
                  rw [run_of_setup_error hload, run_of_setup_error hload']
                  exact ⟨rfl, rfl⟩
          | ok setup =>
              cases loaded' with
              | error error' => cases h
              | ok setup' =>
                  obtain ⟨hlanguages, hsession⟩ := Prod.mk.inj (Option.some.inj h)
                  have hreport : setup'.report tree' options' colored = setup.report tree options colored := by
                    simp only [Setup.report, Progress.summary, hformat, hproject] at hlanguages hsession ⊢
                    rw [hlanguages, hsession]
                  obtain ⟨hwritten, hexit⟩ := run_of_setup hload colored outlet
                  obtain ⟨hwritten', hexit'⟩ := run_of_setup hload' colored outlet
                  rw [hwritten, hexit, hwritten', hexit', hreport]
                  exact ⟨rfl, rfl⟩

/-- A method map is loaded from the bytes of its file, and there is an empty one without a file. -/
theorem load_map_eq (tree : FileTree) (methodMap : Option Path) :
    (loadMap tree methodMap).toOption =
      match methodMap with
      | none => some .empty
      | some path => (tree.read path).toOption.bind fun bytes => (MethodMap.ofBytes bytes).toOption := by
  cases methodMap with
  | none => rfl
  | some path =>
      simp only [loadMap, MethodMap.load]
      cases tree.read path with
      | error fault => rfl
      | ok bytes =>
          cases hmap : MethodMap.ofBytes bytes <;> simp [Except.toOption, Except.mapError, hmap]

/-- The same method map is loaded when the tree is moved. -/
theorem load_map_moved (hfolders : FolderNames folders) {methodMap : Option Path}
    (hstays : ∀ path ∈ methodMap, tree.Stays path)
    (hlength : ∀ path ∈ methodMap.map (Path.ofFolders folders).join,
      path.text.utf8ByteSize ≤ FileTree.pathLimit) :
    (loadMap (tree.movedBelow folders) (methodMap.map (Path.ofFolders folders).join)).toOption =
      (loadMap tree methodMap).toOption := by
  rw [load_map_eq, load_map_eq]
  cases methodMap with
  | none => rfl
  | some path =>
      have hpath := hstays path rfl
      have hshort := hlength _ rfl
      simp only [Option.map_some]
      rw [Path.join_of_folders hfolders hpath.1] at hshort ⊢
      rw [FileTree.read_moved hfolders (.below path hpath.1) hpath hshort]

/-- A setup is loaded exactly when its configuration and its method map are. -/
theorem setup_load_eq (tree : FileTree) (options : Options) :
    (Setup.load tree options).1.toOption =
      (ImportConfig.load tree options.config).config.toOption.bind fun config =>
        (loadMap tree options.methodMap).toOption.map fun map => ⟨config, map⟩ := by
  unfold Setup.load
  simp only
  cases (ImportConfig.load tree options.config).config with
  | error error => rfl
  | ok config =>
      cases loadMap tree options.methodMap <;> rfl

/-- A setup, and the one that stands for it when the tree is moved. -/
structure Setup.Moved (folders : List String) (setup setup' : Setup) : Prop where
  config : setup.config.Moved folders setup'.config
  map : setup'.map = setup.map

/-- A run that can be set up can be when the tree is moved. -/
theorem setup_moved (hfolders : FolderNames folders)
    (hstays : ∀ path ∈ lookups tree options, tree.Stays path)
    (hlength : ∀ path ∈ lookups (tree.movedBelow folders) (options.movedBelow folders),
      path.text.utf8ByteSize ≤ FileTree.pathLimit) :
    Option.Rel (Setup.Moved folders) (Setup.load tree options).1.toOption
      (Setup.load (tree.movedBelow folders) (options.movedBelow folders)).1.toOption := by
  unfold lookups at hstays hlength
  simp only [List.forall_mem_append] at hstays hlength
  obtain ⟨⟨hconfig, hmap⟩, -⟩ := hstays
  obtain ⟨⟨hconfig', hmap'⟩, -⟩ := hlength
  have hrelative := ((List.forall_mem_cons.mp hconfig).1).1
  have hloaded := load_map_moved hfolders (fun path hpath => hmap path (Option.mem_toList.mpr hpath))
    fun path hpath => hmap' path (Option.mem_toList.mpr hpath)
  rw [setup_load_eq, setup_load_eq]
  simp only [Options.movedBelow, Path.join_of_folders hfolders hrelative] at hconfig' ⊢
  have hsame := ImportConfig.load_moved hfolders hconfig hconfig'
  rw [hloaded]
  revert hsame
  generalize (ImportConfig.load tree options.config).config.toOption = config
  generalize (ImportConfig.load (tree.movedBelow folders) _).config.toOption = config'
  generalize (loadMap tree options.methodMap).toOption = map
  rintro (hmoved | _)
  · cases map with
    | none => exact .none
    | some map => exact .some ⟨hmoved, rfl⟩
  · exact .none

/-- Languages come to the same one after the other where each of them finds reports that amount to the
same. -/
theorem import_all_alike {space space' : Workspace} (project : String) {entries : List LanguageConfig}
    (h : ∀ entry ∈ entries, (Source.ofReports space' entry.reports).Alike (.ofReports space entry.reports)) :
    (importAll space' project entries).languages = (importAll space project entries).languages ∧
      (importAll space' project entries).session = (importAll space project entries).session := by
  have hfold : ∀ progress progress' : Progress, progress'.languages = progress.languages →
      progress'.session = progress.session →
      (entries.foldl (Progress.step space' project) progress').languages =
          (entries.foldl (Progress.step space project) progress).languages ∧
        (entries.foldl (Progress.step space' project) progress').session =
          (entries.foldl (Progress.step space project) progress).session := by
    induction entries with
    | nil => exact fun _ _ hlanguages hsession => ⟨hlanguages, hsession⟩
    | cons entry rest ih =>
        intro progress progress' hlanguages hsession
        obtain ⟨hentry, hrest⟩ := List.forall_mem_cons.mp h
        obtain ⟨houtcome, hleft⟩ := entry.language.import_alike project hentry progress.session
        refine ih hrest _ _ ?_ ?_
        · simp only [Progress.step, hlanguages, hsession, houtcome]
        · simp only [Progress.step, hsession, hleft]
  exact hfold .initial .initial rfl rfl

/-- What is set up comes to the same when the tree is moved. -/
theorem setup_results_moved (hfolders : FolderNames folders) {setup setup' : Setup}
    (h : setup.Moved folders setup') (hstays : ∀ path ∈ setup.lookups tree, tree.Stays path)
    (hlength : ∀ path ∈ setup'.lookups (tree.movedBelow folders),
      path.text.utf8ByteSize ≤ FileTree.pathLimit) (project : String) :
    setup'.results (tree.movedBelow folders) project = setup.results tree project := by
  obtain ⟨⟨hlanguages, hempty, hbase⟩, hmap⟩ := h
  unfold Setup.lookups at hstays hlength
  simp only [List.forall_mem_flatMap] at hstays hlength
  rw [hlanguages] at hlength
  unfold Setup.results Setup.import
  rw [hlanguages, hmap]
  have hsources : ∀ entry ∈ setup.config.languages,
      (Source.ofReports ⟨tree.movedBelow folders, setup'.config.baseDir, setup.map⟩ entry.reports).Alike
        (.ofReports ⟨tree, setup.config.baseDir, setup.map⟩ entry.reports) := fun entry hentry =>
    ⟨rfl, Aggregation.aggregate_moved hfolders hempty hbase setup.map entry.reports (hstays entry hentry)
      (hlength entry hentry)⟩
  obtain ⟨hended, hsession⟩ := import_all_alike project hsources
  rw [hended, hsession]

/-- When everything is moved below new folders, a run with the configuration and the method map in their new
places comes to what it came to at the top: the languages end the same way, the same measures are stored in
the same order, and the same warnings are left. It writes the same and exits with the same code. No path that
the run looks at may be absolute, lead above the top or along an absolute link, and none that it looks at in
the new place may be longer than the system takes. -/
theorem moved_run_comes_to_same (hfolders : FolderNames folders)
    (hstays : ∀ path ∈ lookups tree options, tree.Stays path)
    (hlength : ∀ path ∈ lookups (tree.movedBelow folders) (options.movedBelow folders),
      path.text.utf8ByteSize ≤ FileTree.pathLimit) :
    results (tree.movedBelow folders) (options.movedBelow folders) = results tree options ∧
      ∀ colored outlet,
        (run (tree.movedBelow folders) (options.movedBelow folders) colored outlet).exitCode =
            (run tree options colored outlet).exitCode ∧
          (run (tree.movedBelow folders) (options.movedBelow folders) colored outlet).written =
            (run tree options colored outlet).written := by
  have hresults : results (tree.movedBelow folders) (options.movedBelow folders) = results tree options := by
    have hsetup := setup_moved hfolders hstays hlength
    have hproject : (options.movedBelow folders).project = options.project := rfl
    unfold lookups at hstays hlength
    unfold results
    rw [hproject]
    revert hsetup hstays hlength
    generalize (Setup.load tree options).1.toOption = loaded
    generalize (Setup.load (tree.movedBelow folders) (options.movedBelow folders)).1.toOption = loaded'
    rintro hstays hlength (hmoved | _)
    · simp only [List.forall_mem_append, Option.toList_some, List.flatMap_singleton] at hstays hlength
      rw [Option.map_some, Option.map_some,
        setup_results_moved hfolders hmoved hstays.2 hlength.2 options.project]
    · rw [Option.map_none, Option.map_none]
  exact ⟨hresults, run_of_results rfl rfl hresults⟩

/-- A configuration at the top of a tree, without a folder of its own, and a link that leads up to a report
beside it. -/
theorem moved_run_with_link :
    let tree : FileTree := ⟨[
      (["c.toml"], .file (Text.Utf8.encode "[language.cs]\nxunit-report-paths = [\"./*.xml\", \"reports/up\"]\n")),
      (["a.xml"], .file (Text.Utf8.encode "<assemblies><test name=\"C.m\" result=\"Pass\"/></assemblies>")),
      (["reports", "up"], .link ⟨"../a.xml"⟩)]⟩
    let options : Options := { config := ⟨"c.toml"⟩ }
    FolderNames ["d", "e"] ∧ (∀ path ∈ lookups tree options, tree.Stays path) ∧
      (∀ path ∈ lookups (tree.movedBelow ["d", "e"]) (options.movedBelow ["d", "e"]),
        path.text.utf8ByteSize ≤ FileTree.pathLimit) ∧
      (results tree options).map Prod.fst = some [(.cSharp, .imported 0)] ∧
      results (tree.movedBelow ["d", "e"]) (options.movedBelow ["d", "e"]) = results tree options := by
  intro tree options
  have hfolders : FolderNames ["d", "e"] := by decide
  have hstays : ∀ path ∈ lookups tree options, tree.Stays path := by decide +kernel
  have hlength : ∀ path ∈ lookups (tree.movedBelow ["d", "e"]) (options.movedBelow ["d", "e"]),
      path.text.utf8ByteSize ≤ FileTree.pathLimit := by decide +kernel
  exact ⟨hfolders, hstays, hlength, by decide +kernel, (moved_run_comes_to_same hfolders hstays hlength).1⟩

/-- An object without entries is a method map. -/
theorem method_map_of_empty_object : MethodMap.ofBytes [0x7B, 0x7D] = .ok .empty := by
  have hentries : Json.readEntries methodMapValue 2 true ⟨1, [0x7D]⟩ = .ok ([], ⟨2, []⟩) := by
    rw [Json.readEntries]
    rfl
  have hstart : (Json.Cursor.mk 0 [0x7B, 0x7D]).skipSpace = ⟨0, [0x7B, 0x7D]⟩ := by decide
  have hread : Json.readTextMap methodMapValue [0x7B, 0x7D] = .ok [] := by
    unfold Json.readTextMap
    simp only [hstart, Json.Cursor.skip, List.length_singleton, List.tail_cons, hentries]
    rfl
  have htext : Text.Utf8.decode [0x7B, 0x7D] = .ok "\x7b\x7d" := by decide +kernel
  unfold MethodMap.ofBytes
  rw [htext, hread]
  rfl

/-- Pieces that say nothing do not lead out of a tree. -/
theorem stays_of_slashed (tree : FileTree) (slashes : Nat) (name : String) :
    tree.Stays ⟨(Path.slashed slashes).text ++ name⟩ ↔
      tree.staysWithin FileTree.linkLimit [] (Path.mk name).pieces = true := by
  have hempty : ∀ follow rest, tree.staysFrom follow [] (List.replicate slashes "" ++ rest) =
      tree.staysFrom follow [] rest := by
    intro follow rest
    induction slashes with
    | zero => rfl
    | succ slashes ih =>
        rw [List.replicate_succ, List.cons_append, FileTree.staysFrom, if_pos (.inl rfl)]
        exact ih
  have hstays : tree.staysWithin FileTree.linkLimit []
      (Path.mk ((Path.slashed slashes).text ++ name)).pieces =
        tree.staysWithin FileTree.linkLimit [] (Path.mk name).pieces := by
    rw [Path.slashed_pieces]
    exact hempty _ _
  unfold FileTree.Stays
  rw [hstays, Path.slashed_is_relative]
  exact and_iff_right rfl

/-- A tree with a configuration and a method map at its top. -/
def mappedTree : FileTree :=
  ⟨[(["c.toml"], .file (Text.Utf8.encode "[language.cs]\n")), (["m.json"], .file (Text.Utf8.encode "\x7b\x7d"))]⟩

/-- A run there that spells its method map with slashes. -/
def slashedOptions (slashes : Nat) : Options :=
  { config := ⟨"c.toml"⟩, methodMap := some ⟨(Path.slashed slashes).text ++ "m.json"⟩ }

namespace SlashedOptions

variable {slashes : Nat}

/-- The slashed run can load its setup as long as the spelling fits the limit. -/
theorem setup_ok (hlength : slashes + 8 ≤ FileTree.pathLimit) :
    (Setup.load mappedTree (slashedOptions slashes)).1.toOption =
      some ⟨⟨⟨"."⟩, [⟨.cSharp, {}⟩]⟩, .empty⟩ := by
  have hconfig : (ImportConfig.load mappedTree ⟨"c.toml"⟩).config.toOption =
      some ⟨⟨"."⟩, [⟨.cSharp, {}⟩]⟩ := by decide +kernel
  have hread : mappedTree.read ⟨(Path.slashed slashes).text ++ "m.json"⟩ =
      mappedTree.read ⟨(Path.slashed 0).text ++ "m.json"⟩ := by
    unfold FileTree.read
    rw [FileTree.resolve_slashed mappedTree ⟨[], "m.json", by decide, by decide⟩ hlength]
  have hbytes : (mappedTree.read ⟨(Path.slashed 0).text ++ "m.json"⟩).toOption = some [0x7B, 0x7D] := by
    decide +kernel
  simp only [setup_load_eq, slashedOptions, hconfig, load_map_eq, hread, hbytes, Option.bind_some,
    method_map_of_empty_object]
  rfl

/-- No path that the slashed run looks at leaves the tree. -/
theorem lookups_stay (hlength : slashes + 8 ≤ FileTree.pathLimit) :
    ∀ path ∈ lookups mappedTree (slashedOptions slashes), mappedTree.Stays path := by
  have hconfig : ImportConfig.lookups mappedTree ⟨"c.toml"⟩ = [⟨"c.toml"⟩] := by decide +kernel
  have hlookups : lookups mappedTree (slashedOptions slashes) =
      [⟨"c.toml"⟩, ⟨(Path.slashed slashes).text ++ "m.json"⟩] := by
    rw [lookups, setup_ok hlength]
    simp only [slashedOptions, hconfig]
    rfl
  rw [hlookups]
  intro path hpath
  rcases List.mem_pair.mp hpath with rfl | rfl
  · decide +kernel
  · rw [stays_of_slashed]
    decide +kernel

/-- Behind folders, the slashed run cannot load its setup once the spelling no longer fits the limit. -/
theorem moved_setup_fails {folders : List String} (hfolders : FolderNames folders)
    (hlength : FileTree.pathLimit < slashes + 10) :
    (Setup.load (mappedTree.movedBelow folders) ((slashedOptions slashes).movedBelow folders)).1.toOption =
      none := by
  have hlong : FileTree.pathLimit <
      ((Path.ofFolders folders).join ⟨(Path.slashed slashes).text ++ "m.json"⟩).text.utf8ByteSize := by
    have hempty : (Path.ofFolders folders).text.utf8ByteSize ≠ 0 := fun hzero =>
      Path.of_folders_not_empty hfolders (String.utf8ByteSize_eq_zero_iff.mp hzero)
    have hslash : "/".utf8ByteSize = 1 := rfl
    have hname : "m.json".utf8ByteSize = 6 := rfl
    rw [Path.join_of_folders hfolders (Path.slashed_is_relative ..)]
    simp only [String.utf8ByteSize_append, Path.slashed_size, hslash, hname]
    omega
  obtain ⟨fault, hfault⟩ := FileTree.resolve_of_long (mappedTree.movedBelow folders) hlong
  simp only [setup_load_eq, Options.movedBelow, slashedOptions, Option.map_some, load_map_eq, FileTree.read, hfault]
  simp [Except.toOption]

end SlashedOptions

/-- A method map at a path that is as long as the system takes is not read once the path gets longer. -/
theorem moved_map_too_long :
    FolderNames ["d"] ∧ (∀ path ∈ lookups mappedTree (slashedOptions 4087), mappedTree.Stays path) ∧
      (results mappedTree (slashedOptions 4087)).map Prod.fst = some [(.cSharp, .skipped)] ∧
      results (mappedTree.movedBelow ["d"]) ((slashedOptions 4087).movedBelow ["d"]) = none := by
  have hfolders : FolderNames ["d"] := by decide
  have hfits : 4087 + 8 ≤ FileTree.pathLimit := by decide
  have hlong : FileTree.pathLimit < 4087 + 10 := by decide
  refine ⟨hfolders, SlashedOptions.lookups_stay hfits, ?_, ?_⟩
  · rw [results, SlashedOptions.setup_ok hfits]
    rfl
  · rw [results, SlashedOptions.moved_setup_fails hfolders hlong]
    rfl

end TestMeasures.Command
