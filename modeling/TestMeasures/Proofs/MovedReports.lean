import TestMeasures.Proofs.MovedTree

/-!
# Reports in a tree that is moved

The patterns of a moved tree lead to the same files in the same order (`Pattern.resolve_moved`), a report is
skipped in both places or in neither, and an aggregation comes to the same table
(`Aggregation.aggregate_moved`).
-/

namespace TestMeasures

namespace Path

variable {folders : List String} {base base' path path' other other' : Path}

/-- A path below a base, and the one that stands for it below the base that stands for that: both add the
same components. -/
structure MovedFrom (folders : List String) (base base' path path' : Path) : Prop where
  moved : path.Moved folders path'
  not_empty : path.text ≠ ""
  components : ∃ more, path.components = base.components ++ more ∧
    path'.components = base'.components ++ more

/-- The base directory itself is moved to its new place. -/
theorem moved_from_self (h : base.Moved folders base') (hbase : base.text ≠ "") :
    MovedFrom folders base base' base base' :=
  ⟨h, hbase, [], by simp, by simp⟩

/-- What is put below the one path stands below the other. -/
theorem MovedFrom.join (hfolders : FolderNames folders) (h : MovedFrom folders base base' path path')
    {addition : Path} (hrelative : addition.isAbsolute = false) :
    MovedFrom folders base base' (path.join addition) (path'.join addition) where
  moved := h.moved.join hfolders h.not_empty hrelative
  not_empty := join_not_empty h.not_empty addition
  components := by
    obtain ⟨more, hmore, hmore'⟩ := h.components
    refine ⟨more ++ addition.pieces.filterMap Component.ofPiece?, ?_, ?_⟩
    · rw [components_join h.not_empty hrelative, hmore, List.append_assoc]
    · rw [components_join (h.moved.not_empty hfolders) hrelative, hmore', List.append_assoc]

/-- A path that is relative once names were put below it, one after the other, was relative, and so are the
names. -/
theorem relative_of_below (hpath : path.text ≠ "") {names : List String}
    (h : (path.below names).isAbsolute = false) :
    path.isAbsolute = false ∧ ∀ name ∈ names, (Path.mk name).isAbsolute = false := by
  induction names generalizing path with
  | nil => exact ⟨h, by simp⟩
  | cons name rest ih =>
      obtain ⟨hjoined, hrest⟩ := ih (join_not_empty hpath ⟨name⟩) h
      obtain ⟨hrelative, hname⟩ := relative_of_join hpath hjoined
      exact ⟨hrelative, List.forall_mem_cons.mpr ⟨hname, hrest⟩⟩

/-- What names lead to below the one path stands where they lead to below the other. -/
theorem MovedFrom.below (hfolders : FolderNames folders) (h : MovedFrom folders base base' path path')
    {names : List String} (hnames : ∀ name ∈ names, (Path.mk name).isAbsolute = false) :
    MovedFrom folders base base' (path.below names) (path'.below names) := by
  induction names generalizing path path' with
  | nil => exact h
  | cons name rest ih =>
      obtain ⟨hname, hrest⟩ := List.forall_mem_cons.mp hnames
      exact ih (h.join hfolders hname) hrest

/-- Paths below one base are one path where those that stand for them are. -/
theorem MovedFrom.same_eq (h : MovedFrom folders base base' path path')
    (hother : MovedFrom folders base base' other other') : path'.same other' = path.same other := by
  obtain ⟨more, hmore, hmore'⟩ := h.components
  obtain ⟨more', hother, hother'⟩ := hother.components
  rw [Bool.eq_iff_iff, same_iff, same_iff, hmore, hmore', hother, hother', List.append_cancel_left_eq,
    List.append_cancel_left_eq]

/-- Keys that begin alike are ordered by the rest. -/
theorem compare_append (front key other : List (List Nat)) :
    compare (front ++ key) (front ++ other) = compare key other := by
  induction front with
  | nil => rfl
  | cons rank front ih =>
      have hself : compare rank rank = .eq := Std.ReflCmp.compare_self
      rw [List.cons_append, List.cons_append, List.compare_cons_cons, hself, ih]
      rfl

/-- Paths below one base stand in the order of those that stand for them. -/
theorem MovedFrom.order_eq (h : MovedFrom folders base base' path path')
    (hother : MovedFrom folders base base' other other') : path'.order other' = path.order other := by
  obtain ⟨more, hmore, hmore'⟩ := h.components
  obtain ⟨more', hother, hother'⟩ := hother.components
  simp only [order, sortKey, hmore, hmore', hother, hother', List.map_append, compare_append]

end Path

namespace Pattern

open TestMeasures.Path (MovedFrom)

variable {folders : List String} {tree : FileTree} {base base' : Path} {pattern : String}

/-- The path that a pattern is looked up at first: the folder in front of its glob, or the file that it
names. -/
def start (base : Path) (pattern : String) : Path :=
  if isGlob pattern then searchFolder base pattern else base.join ⟨pattern⟩

/-- The paths that a pattern is looked up at: where it starts, the folders that are opened below, and what it
stands for. -/
def lookups (tree : FileTree) (base : Path) (pattern : String) : List Path :=
  start base pattern :: (opened tree base pattern ++ ((resolve tree base pattern).toOption.getD []))

/-- A path is inserted in the new place where it is in the old one. -/
theorem insert_path_moved {path path' : Path} {paths paths' : List Path}
    (h : MovedFrom folders base base' path path')
    (hpaths : List.Forall₂ (MovedFrom folders base base') paths paths') :
    List.Forall₂ (MovedFrom folders base base') (insertPath path paths) (insertPath path' paths') := by
  induction hpaths with
  | nil => exact .cons h .nil
  | cons hhead hrest ih =>
      unfold insertPath
      rw [h.order_eq hhead]
      split
      · exact .cons hhead ih
      · exact .cons h (.cons hhead hrest)

/-- Paths are sorted in the new place as in the old one. -/
theorem sort_paths_moved {paths paths' : List Path}
    (h : List.Forall₂ (MovedFrom folders base base') paths paths') :
    List.Forall₂ (MovedFrom folders base base') (sortPaths paths) (sortPaths paths') := by
  induction h with
  | nil => exact .nil
  | cons hhead hrest ih => exact insert_path_moved hhead ih

/-- The files below a folder that a glob matches are the same when the tree is moved. -/
theorem matches_below_moved (hfolders : FolderNames folders) {folder folder' : Path}
    (h : MovedFrom folders base base' folder folder') (hstays : tree.Stays folder)
    (hlength : folder'.text.utf8ByteSize ≤ FileTree.pathLimit) {tokens : List Glob.Token}
    (hrelative : ∀ path ∈ matchesBelow tree folder tokens, path.isAbsolute = false) :
    List.Forall₂ (MovedFrom folders base base') (matchesBelow tree folder tokens)
      (matchesBelow (tree.movedBelow folders) folder' tokens) := by
  unfold matchesBelow at hrelative ⊢
  rw [FileTree.files_below_moved hfolders h.moved hstays hlength h.not_empty]
  refine sort_paths_moved ?_
  rw [List.forall₂_map_left_iff, List.forall₂_map_right_iff, List.forall₂_same]
  intro names hnames
  have hpath := hrelative _ (mem_sort_paths.mpr (List.mem_map_of_mem hnames))
  exact h.below hfolders (Path.relative_of_below h.not_empty hpath).2

/-- If every folder below one can be opened when the tree is moved, it can be before. -/
theorem unopened_moved (hfolders : FolderNames folders) {folder folder' : Path}
    (h : MovedFrom folders base base' folder folder') (hstays : tree.Stays folder)
    (hlength : folder'.text.utf8ByteSize ≤ FileTree.pathLimit)
    (hrelative : ∀ names ∈ tree.foldersBelow folder, (folder.below names).isAbsolute = false)
    (hopened : (tree.movedBelow folders).unopened? folder' = none) : tree.unopened? folder = none := by
  rw [FileTree.unopened_eq_none_iff, FileTree.folders_below_moved hfolders h.moved hstays hlength h.not_empty]
    at hopened
  rw [FileTree.unopened_eq_none_iff]
  intro names hnames
  have hbelow := h.below hfolders (Path.relative_of_below h.not_empty (hrelative names hnames)).2
  exact (hbelow.moved.size_le hfolders).trans (hopened names hnames)

/-- A pattern stands for the same paths when the tree is moved, or its glob cannot be read in either
place. -/
theorem resolve_moved (hfolders : FolderNames folders) (hbase : base.text ≠ "")
    (hmoved : base.isAbsolute = false → base.Moved folders base')
    (hstays : ∀ path ∈ lookups tree base pattern, tree.Stays path)
    (hlength : ∀ path ∈ lookups (tree.movedBelow folders) base' pattern,
      path.text.utf8ByteSize ≤ FileTree.pathLimit) :
    (∃ error, resolve tree base pattern = .error error ∧
      resolve (tree.movedBelow folders) base' pattern = .error error) ∨
    ∃ paths paths', resolve tree base pattern = .ok paths ∧
      resolve (tree.movedBelow folders) base' pattern = .ok paths' ∧
      List.Forall₂ (MovedFrom folders base base') paths paths' := by
  obtain ⟨hstart, hbelow⟩ := List.forall_mem_cons.mp hstays
  obtain ⟨hopened, hfound⟩ := List.forall_mem_append.mp hbelow
  obtain ⟨hshort, hbelow'⟩ := List.forall_mem_cons.mp hlength
  obtain ⟨hopened', -⟩ := List.forall_mem_append.mp hbelow'
  unfold start at hstart hshort
  by_cases hglob : isGlob pattern = true
  · rw [if_pos hglob] at hstart hshort
    rw [resolve_of_glob tree base hglob] at hfound ⊢
    rw [resolve_of_glob _ base' hglob]
    obtain ⟨hrelative, hnames⟩ := Path.relative_of_below hbase hstart.1
    have hfolder : MovedFrom folders base base' (searchFolder base pattern) (searchFolder base' pattern) :=
      (Path.moved_from_self (hmoved hrelative) hbase).below hfolders hnames
    rw [FileTree.is_folder_moved hfolders hfolder.moved hstart hshort hfolder.not_empty]
    cases hparse : Glob.parse (globPart pattern) with
    | error fault => exact .inl ⟨_, rfl, rfl⟩
    | ok tokens =>
        rw [opened_of_glob tree base hglob hparse, List.forall_mem_map] at hopened
        rw [opened_of_glob _ base' hglob hparse, List.forall_mem_map, ← FileTree.unopened_eq_none_iff] at hopened'
        have hnone : tree.unopened? (searchFolder base pattern) = none :=
          unopened_moved hfolders hfolder hstart hshort (fun names hnames => (hopened names hnames).1) hopened'
        simp only [hparse, hnone, hopened'] at hfound ⊢
        by_cases hfolder' : tree.isFolder (searchFolder base pattern) = true
        · simp only [if_pos hfolder', Except.toOption, Option.getD_some] at hfound ⊢
          exact .inr ⟨_, _, rfl, rfl,
            matches_below_moved hfolders hfolder hstart hshort fun path hpath => (hfound path hpath).1⟩
        · simp only [if_neg hfolder']
          exact .inr ⟨_, _, rfl, rfl, .nil⟩
  · rw [if_neg hglob] at hstart hshort
    rw [resolve_of_name tree base hglob, resolve_of_name _ base' hglob]
    obtain ⟨hrelative, hpattern⟩ := Path.relative_of_join hbase hstart.1
    have hpath : MovedFrom folders base base' (base.join ⟨pattern⟩) (base'.join ⟨pattern⟩) :=
      (Path.moved_from_self (hmoved hrelative) hbase).join hfolders hpattern
    refine .inr ⟨_, _, rfl, rfl, ?_⟩
    rw [FileTree.is_file_moved hfolders hpath.moved hstart hshort]
    split
    · exact .cons hpath .nil
    · exact .nil

end Pattern

/-- A report amounts to the same under every path at which the same is read. -/
theorem Dialect.parse_file_alike (dialect : Dialect) {tree tree' : FileTree} {path path' : Path}
    (h : (tree'.read path').toOption = (tree.read path).toOption) (map : MethodMap) (table : Table) :
    (dialect.parseFile tree' path' map table).table = (dialect.parseFile tree path map table).table ∧
      ((dialect.parseFile tree' path' map table).failure = none ↔
        (dialect.parseFile tree path map table).failure = none) := by
  have hread : ∀ (tree : FileTree) (path : Path), dialect.parseFile tree path map table =
      match (tree.read path).toOption with
      | some bytes => dialect.parse path bytes map table
      | none => { dialect.parseFile tree path map table with table := table } := by
    intro tree path
    unfold parseFile FileTree.read
    cases tree.resolve path with
    | error fault => rfl
    | ok found =>
        obtain ⟨place, node⟩ := found
        cases node <;> rfl
  have hunread : ∀ (tree : FileTree) (path : Path), (tree.read path).toOption = none →
      (dialect.parseFile tree path map table).failure ≠ none := by
    intro tree path hnone
    unfold FileTree.read at hnone
    unfold parseFile
    cases hresolve : tree.resolve path with
    | error fault => simp
    | ok found =>
        obtain ⟨place, node⟩ := found
        cases node with
        | file bytes => simp [hresolve, Except.toOption] at hnone
        | folder | link => simp
  cases hbytes : (tree.read path).toOption with
  | some bytes =>
      rw [hread tree path, hread tree' path', h, hbytes]
      simp [Dialect.parse, Account.addTo]
  | none =>
      have hfailed := hunread tree path hbytes
      have hfailed' := hunread tree' path' (h.trans hbytes)
      rw [hread tree path, hread tree' path', h, hbytes]
      exact ⟨rfl, iff_of_false hfailed' hfailed⟩

namespace Aggregation

open TestMeasures.Path (MovedFrom)

variable {folders : List String} {tree : FileTree} {base base' : Path}

/-- An aggregation, and the one that stands for it when the tree is moved: the same reports were parsed, and
amount to the same. -/
structure Moved (folders : List String) (base base' : Path) (state state' : Aggregation) : Prop where
  seen : List.Forall₂ (fun a b : Dialect × Path => a.1 = b.1 ∧ MovedFrom folders base base' a.2 b.2)
    state.seen state'.seen
  table : state.table = state'.table

/-- Both aggregations go on, or both end. -/
inductive EndsMoved (folders : List String) (base base' : Path) :
    Aggregation × Option AggregateError → Aggregation × Option AggregateError → Prop where
  | going {state state' : Aggregation} (h : Moved folders base base' state state') :
      EndsMoved folders base base' (state, none) (state', none)
  | failed {state state' : Aggregation} {error error' : AggregateError} :
      EndsMoved folders base base' (state, some error) (state', some error')

variable {state state' : Aggregation}

/-- Telling events keeps aggregations in step. -/
theorem Moved.tell (h : Moved folders base base' state state') (events events' : List Event) :
    Moved folders base base' (state.tell events) (state'.tell events') :=
  ⟨h.seen, h.table⟩

/-- A report was parsed before in both places or in neither. -/
theorem Moved.has_seen_eq (h : Moved folders base base' state state') (dialect : Dialect) {path path' : Path}
    (hpath : MovedFrom folders base base' path path') :
    state'.hasSeen dialect path' = state.hasSeen dialect path := by
  obtain ⟨seen, table, events⟩ := state
  obtain ⟨seen', table', events'⟩ := state'
  have hseen : List.Forall₂ _ seen seen' := h.seen
  clear h
  unfold hasSeen
  induction hseen with
  | nil => rfl
  | cons hentry _ ih =>
      obtain ⟨hdialect, hentry⟩ := hentry
      rw [List.any_cons, List.any_cons, ih, hentry.same_eq hpath, hdialect]

/-- Adding a report goes on from what stands for each other, or ends in both places. -/
theorem add_file_moved (map : MethodMap) (hfolders : FolderNames folders)
    (h : Moved folders base base' state state') (dialect : Dialect) {path path' : Path}
    (hpath : MovedFrom folders base base' path path')
    (hstays : tree.Stays path) (hlength : path'.text.utf8ByteSize ≤ FileTree.pathLimit) :
    EndsMoved folders base base' (addFile ⟨tree, base, map⟩ dialect state path)
      (addFile ⟨tree.movedBelow folders, base', map⟩ dialect state' path') := by
  obtain ⟨htable, hfailure⟩ := dialect.parse_file_alike
    (FileTree.read_moved hfolders hpath.moved hstays hlength) map .empty
  unfold addFile
  rw [h.has_seen_eq dialect hpath]
  split
  · exact .going (h.tell _ _)
  · cases hparsed : (dialect.parseFile tree path map .empty).failure with
    | none =>
        simp only [hparsed, hfailure.mpr hparsed]
        refine .going ⟨.cons ⟨rfl, hpath⟩ h.seen, ?_⟩
        rw [h.table, htable]
    | some error =>
        obtain ⟨error', hparsed'⟩ := Option.ne_none_iff_exists'.mp fun hnone =>
          absurd (hfailure.mp hnone) (by simp [hparsed])
        simp only [hparsed, hparsed']
        exact .failed

/-- Files are added in the new place as in the old one. -/
theorem add_files_moved (map : MethodMap) (hfolders : FolderNames folders)
    (h : Moved folders base base' state state') (dialect : Dialect) {paths paths' : List Path}
    (hpaths : List.Forall₂ (MovedFrom folders base base') paths paths')
    (hstays : ∀ path ∈ paths, tree.Stays path)
    (hlength : ∀ path ∈ paths', path.text.utf8ByteSize ≤ FileTree.pathLimit) :
    EndsMoved folders base base' (addFiles ⟨tree, base, map⟩ dialect state paths)
      (addFiles ⟨tree.movedBelow folders, base', map⟩ dialect state' paths') := by
  induction hpaths generalizing state state' with
  | nil => exact .going h
  | cons hpath hrest ih =>
      obtain ⟨hhead, hstays⟩ := List.forall_mem_cons.mp hstays
      obtain ⟨hshort, hlength⟩ := List.forall_mem_cons.mp hlength
      have hfile := add_file_moved map hfolders h dialect hpath hhead hshort
      unfold addFiles
      revert hfile
      generalize addFile _ dialect state _ = ended
      generalize addFile _ dialect state' _ = ended'
      rintro (hgoing | _)
      · exact ih hgoing hstays hlength
      · exact .failed

/-- A pattern is gone through in the new place as in the old one. -/
theorem add_pattern_moved (map : MethodMap) (hfolders : FolderNames folders) (hbase : base.text ≠ "")
    (hmoved : base.isAbsolute = false → base.Moved folders base')
    (h : Moved folders base base' state state') (dialect : Dialect) (pattern : String)
    (hstays : ∀ path ∈ Pattern.lookups tree base pattern, tree.Stays path)
    (hlength : ∀ path ∈ Pattern.lookups (tree.movedBelow folders) base' pattern,
      path.text.utf8ByteSize ≤ FileTree.pathLimit) :
    EndsMoved folders base base' (addPattern ⟨tree, base, map⟩ state dialect pattern)
      (addPattern ⟨tree.movedBelow folders, base', map⟩ state' dialect pattern) := by
  unfold addPattern
  rcases Pattern.resolve_moved hfolders hbase hmoved hstays hlength with
    ⟨error, herror, herror'⟩ | ⟨paths, paths', hpaths, hpaths', hall⟩
  · simp only [herror, herror']
    exact .failed
  · have hin : ∀ path ∈ paths, tree.Stays path := fun path hpath =>
      hstays path (List.mem_cons_of_mem _ (List.mem_append_right _ (by rw [hpaths]; exact hpath)))
    have hshort : ∀ path ∈ paths', path.text.utf8ByteSize ≤ FileTree.pathLimit := fun path hpath =>
      hlength path (List.mem_cons_of_mem _ (List.mem_append_right _ (by rw [hpaths']; exact hpath)))
    simp only [hpaths, hpaths']
    cases hall with
    | nil => exact .going (h.tell _ _)
    | cons hpath hrest => exact add_files_moved map hfolders h dialect (.cons hpath hrest) hin hshort

/-- Patterns are gone through in the new place as in the old one. -/
theorem add_patterns_moved (map : MethodMap) (hfolders : FolderNames folders) (hbase : base.text ≠ "")
    (hmoved : base.isAbsolute = false → base.Moved folders base')
    (h : Moved folders base base' state state') (patterns : List (Dialect × String))
    (hstays : ∀ entry ∈ patterns, ∀ path ∈ Pattern.lookups tree base entry.2, tree.Stays path)
    (hlength : ∀ entry ∈ patterns, ∀ path ∈ Pattern.lookups (tree.movedBelow folders) base' entry.2,
      path.text.utf8ByteSize ≤ FileTree.pathLimit) :
    EndsMoved folders base base' (addPatterns ⟨tree, base, map⟩ state patterns)
      (addPatterns ⟨tree.movedBelow folders, base', map⟩ state' patterns) := by
  induction patterns generalizing state state' with
  | nil => exact .going h
  | cons entry rest ih =>
      obtain ⟨hhead, hstays⟩ := List.forall_mem_cons.mp hstays
      obtain ⟨hshort, hlength⟩ := List.forall_mem_cons.mp hlength
      have hpattern := add_pattern_moved map hfolders hbase hmoved h entry.1 entry.2 hhead hshort
      unfold addPatterns
      revert hpattern
      generalize addPattern _ state entry.1 entry.2 = ended
      generalize addPattern _ state' entry.1 entry.2 = ended'
      rintro (hgoing | _)
      · exact ih hgoing hstays hlength
      · exact .failed

/-- Reports that cannot be aggregated cannot be when the tree is moved either, and all others amount to the
same table. -/
theorem aggregate_moved (hfolders : FolderNames folders) (hbase : base.text ≠ "")
    (hmoved : base.isAbsolute = false → base.Moved folders base') (map : MethodMap) (reports : Reports)
    (hstays : ∀ entry ∈ reports.toList, ∀ path ∈ Pattern.lookups tree base entry.2, tree.Stays path)
    (hlength : ∀ entry ∈ reports.toList,
      ∀ path ∈ Pattern.lookups (tree.movedBelow folders) base' entry.2,
        path.text.utf8ByteSize ≤ FileTree.pathLimit) :
    (aggregate ⟨tree.movedBelow folders, base', map⟩ reports).1.toOption =
      (aggregate ⟨tree, base, map⟩ reports).1.toOption := by
  have hinitial : Moved folders base base' initial initial := ⟨.nil, rfl⟩
  have hends := add_patterns_moved map hfolders hbase hmoved hinitial reports.toList hstays hlength
  unfold aggregate
  revert hends
  generalize addPatterns ⟨tree, base, map⟩ initial reports.toList = ended
  generalize addPatterns ⟨tree.movedBelow folders, base', map⟩ initial reports.toList = ended'
  rintro (hgoing | _)
  · exact congrArg some hgoing.table.symm
  · rfl

end Aggregation

end TestMeasures
