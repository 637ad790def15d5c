import Mathlib.Data.List.Nodup
import TestMeasures.Proofs.MovedReports

/-!
# Folders below a folder

In a tree without links, names that are joined to the path of a folder lead to what stands below it by these
names (`FileTree.walk_path_below`). Where a file stands further down, what they lead to is a folder, as long as
the path is not too long for the system (`FileTree.resolve_above_file`). The files below a folder are those whose
locations begin with its own (`FileTree.mem_files_below_iff`).
-/

namespace TestMeasures

namespace Path

variable {base : Path} {names : List String}

/-- What names lead to from a folder is below it by these names. -/
theorem below_path_below (hbase : base.text ≠ "") (hnames : ∀ name ∈ names, IsFileName name) :
    Below base names (base.below names) := by
  have hfold : ∀ {above path}, Below base above path →
      Below base (above ++ names) (names.foldl (fun path name => path.join ⟨name⟩) path) := by
    induction names with
    | nil =>
        intro above path h
        rw [List.append_nil]
        exact h
    | cons name rest ih =>
        intro above path h
        obtain ⟨hname, hrest⟩ := List.forall_mem_cons.mp hnames
        have hpieces := pieces_of_no_slash hname.no_slash
        have hsteps : steps (Path.mk name).pieces = [name] := by
          simp [hpieces, steps, silent_of_file_name hname]
        have hnext := h.join (relative_of_no_slash hname.no_slash)
          (by rw [hpieces]; simpa using Ne.symm hname.not_parent)
        rw [hsteps] at hnext
        have hall := ih hrest hnext
        rwa [List.append_assoc] at hall
  exact hfold (below_self hbase)

/-- Names lead below a path one after the other. -/
theorem path_below_append (base : Path) (names more : List String) :
    base.below (names ++ more) = (base.below names).below more :=
  List.foldl_append

/-- What names lead to ends in the last of them. -/
theorem ends_in_step_path_below (hnames : ∀ name ∈ names, IsFileName name) (hsome : names ≠ []) :
    EndsInStep (base.below names).pieces := by
  obtain ⟨init, last, rfl⟩ := List.eq_nil_or_concat names |>.resolve_left hsome
  rw [List.concat_eq_append] at hnames ⊢
  rw [path_below_append]
  exact ends_in_step_join (hnames last (by simp)) _

/-- The path below a folder takes one more step for each name. -/
theorem steps_path_below (hbase : base.text ≠ "") (hnames : ∀ name ∈ names, IsFileName name) :
    steps (base.below names).pieces = steps base.pieces ++ names := by
  have hbelow := below_path_below hbase hnames
  have hsteps : (names.map Component.name).filterMap Component.step? = names := by
    rw [List.filterMap_map]
    exact List.filterMap_some
  rw [steps_pieces, hbelow.components_eq, List.filterMap_append, hsteps, steps_pieces]

end Path

namespace FileTree

open TestMeasures.Path (steps EndsInStep silent)

/-- A tree as a disk can hold it: a location stands for one thing, nothing stands below what is no folder, and
names are such as files and folders can have, without a zero character and of at most 255 bytes. -/
structure Proper (tree : FileTree) : Prop where
  named : tree.Named
  short : ∀ entry ∈ tree.entries, ∀ name ∈ entry.1, name.utf8ByteSize ≤ 255
  no_nul : ∀ entry ∈ tree.entries, ∀ name ∈ entry.1, '\x00' ∉ name.toList
  distinct : (tree.entries.map Prod.fst).Nodup
  leaves : ∀ entry ∈ tree.entries, entry.2 ≠ .folder →
    ∀ other ∈ tree.entries, entry.1 <+: other.1 → other.1 = entry.1

variable {tree : FileTree} {base : Path} {names : List String} {bytes : List UInt8} {top : List String}
  {follow : Place → List String → Except FileFault (Place × Node)}

/-- Without links, pieces that lead to a folder do so by those among them that say something. -/
theorem walk_steps_of_folder (hlinkless : tree.Linkless) {place found : Place} {pieces : List String}
    (h : tree.walk follow place pieces = .ok (found, .folder)) :
    tree.walk follow place (steps pieces) = .ok (found, .folder) := by
  induction pieces generalizing place with
  | nil => exact h
  | cons piece rest ih =>
      obtain ⟨next, hnext⟩ := exists_next_of_walk hlinkless (.inr rfl) h
      have hrest := ih ((hnext rest).symm.trans h)
      unfold steps at hrest ⊢
      cases hsilent : silent piece with
      | false =>
          rw [List.filter_cons_of_pos (by simp [hsilent]), hnext]
          exact hrest
      | true =>
          have hpiece : piece = "" ∨ piece = "." := by simpa [silent] using hsilent
          rw [List.filter_cons_of_neg (by simp [hsilent])]
          refine ih ?_
          unfold walk at h
          rwa [if_pos hpiece] at h

/-- Without links, names below a folder are followed from where the folder is. -/
theorem walk_path_below (hlinkless : tree.Linkless) {place : Place}
    (hbase : tree.resolve base = .ok (place, .folder)) (hnames : ∀ name ∈ names, IsFileName name)
    (hsome : names ≠ []) :
    let path := base.below names
    tree.resolveFrom linkLimit (if path.isAbsolute then .outside else .inside []) path.pieces =
      tree.walk (tree.resolveFrom 39) place names := by
  intro path
  have hnonempty : base.text ≠ "" := by
    intro hempty
    simp [resolve, hempty] at hbase
  have hlimit : tree.resolveFrom linkLimit = tree.walk (tree.resolveFrom 39) := rfl
  have hwalk := walk_of_resolve hbase
  rw [hlimit] at hwalk ⊢
  rw [walk_steps tree (resolve_from_skips tree 39) (.inr (Path.ends_in_step_path_below hnames hsome)),
    Path.steps_path_below hnonempty hnames, (Path.below_path_below hnonempty hnames).absolute_eq]
  exact walk_behind_folder hlinkless (walk_steps_of_folder hlinkless hwalk) names

/-- Without links, a folder that names lead to from a folder stands below it by these names. -/
theorem folder_path_below (hlinkless : tree.Linkless) {place : Place}
    (hbase : tree.resolve base = .ok (place, .folder)) (hnames : ∀ name ∈ names, IsFileName name)
    {deep : List String} (h : tree.resolve (base.below names) = .ok (.inside deep, .folder)) :
    ∃ top, place = .inside top ∧ deep = top ++ names := by
  by_cases hsome : names = []
  · rw [hsome] at h
    obtain ⟨rfl, -⟩ := Prod.mk.inj (Except.ok.inj (hbase.symm.trans h))
    exact ⟨deep, rfl, by rw [hsome, List.append_nil]⟩
  · have hwalk := walk_of_resolve h
    rw [walk_path_below hlinkless hbase hnames hsome] at hwalk
    have hsteps : ∀ name ∈ names, silent name = false ∧ name ≠ ".." := fun name hname =>
      ⟨Path.silent_of_file_name (hnames name hname), (hnames name hname).not_parent⟩
    obtain ⟨top, hplace, hdeep⟩ := walk_names hlinkless hsteps hsome hwalk
    exact ⟨top, hplace, Place.inside.inj hdeep⟩

/-- In a proper tree without links, what stands above a file is a folder. -/
theorem node_above_file (hlinkless : tree.Linkless) (hproper : tree.Proper) {above more : List String}
    (hmore : more ≠ []) (h : (above ++ more, Node.file bytes) ∈ tree.entries) :
    tree.node? above = some .folder := by
  unfold node?
  split
  case h_1 entry hfind =>
    have hentry := List.mem_of_find?_eq_some hfind
    have habove : entry.1 = above := by simpa using List.find?_some hfind
    cases hnode : entry.2 with
    | folder => rfl
    | link target => exact absurd hnode (hlinkless entry hentry target)
    | file other =>
        have hprefix : entry.1 <+: above ++ more := habove ▸ List.prefix_append above more
        have hnofolder : entry.2 ≠ .folder := by
          rw [hnode]
          exact Node.noConfusion
        have hsame : above ++ more = entry.1 := hproper.leaves entry hentry hnofolder _ h hprefix
        rw [habove] at hsame
        exact absurd (List.append_right_eq_self.mp hsame) hmore
  case h_2 =>
    have hany : tree.entries.any (fun entry => above.isPrefixOf entry.1) = true :=
      List.any_eq_true.mpr ⟨_, h, by simp⟩
    rw [hany, Bool.or_true, if_pos rfl]

/-- In a proper tree without links, names on the way to a file lead down to a folder. -/
theorem walk_above_file (hlinkless : tree.Linkless) (hproper : tree.Proper) {more : List String}
    (hmore : more ≠ []) (h : (top ++ names ++ more, Node.file bytes) ∈ tree.entries) :
    tree.walk follow (.inside top) names = .ok (.inside (top ++ names), .folder) := by
  induction names generalizing top with
  | nil => rw [List.append_nil]; rfl
  | cons name rest ih =>
      have hsplit : top ++ name :: rest = top ++ [name] ++ rest := by simp
      have hmem : name ∈ top ++ name :: rest ++ more := by simp
      have hname := hproper.named _ h name hmem
      have hsize := hproper.short _ h name hmem
      have hpiece : ¬ (name = "" ∨ name = ".") := not_or.mpr ⟨hname.not_empty, hname.not_current⟩
      rw [hsplit] at h ⊢
      have hnode : tree.node? (top ++ [name]) = some .folder :=
        node_above_file hlinkless hproper (List.append_ne_nil_of_right_ne_nil rest hmore)
          (by rwa [List.append_assoc] at h)
      unfold walk
      rw [if_neg hpiece, if_neg hname.not_parent]
      simp only [if_neg (Nat.not_lt.mpr hsize), hnode]
      exact ih h

/-- A path that the system takes is resolved by walking over its pieces. -/
theorem resolve_eq_walk (tree : FileTree) {path : Path} (hnul : '\x00' ∉ path.text.toList)
    (hempty : path.text ≠ "") (hlength : path.text.utf8ByteSize ≤ pathLimit) :
    tree.resolve path =
      tree.resolveFrom linkLimit (if path.isAbsolute then .outside else .inside []) path.pieces := by
  unfold resolve
  rw [if_neg hnul, if_neg hempty, if_neg (Nat.not_lt.mpr hlength)]

/-- What leads anywhere has no zero character and is not empty. -/
theorem text_of_resolve {path : Path} {found : Place × Node} (h : tree.resolve path = .ok found) :
    '\x00' ∉ path.text.toList ∧ path.text ≠ "" := by
  unfold resolve at h
  split at h
  case isTrue => cases h
  case isFalse hnul =>
    split at h
    case isTrue => cases h
    case isFalse hempty => exact ⟨hnul, hempty⟩

/-- In a proper tree without links, a path that is short enough leads to the folder above a file. -/
theorem resolve_above_file (hlinkless : tree.Linkless) (hproper : tree.Proper)
    (hbase : tree.resolve base = .ok (.inside top, .folder)) {more : List String} (hmore : more ≠ [])
    (h : (top ++ names ++ more, Node.file bytes) ∈ tree.entries)
    (hlength : (base.below names).text.utf8ByteSize ≤ pathLimit) :
    tree.resolve (base.below names) = .ok (.inside (top ++ names), .folder) := by
  by_cases hsome : names = []
  · rw [hsome, List.append_nil]
    exact hbase
  · have hmem : ∀ name ∈ names, name ∈ top ++ names ++ more := by
      intro name hname
      simp [hname]
    have hnames : ∀ name ∈ names, IsFileName name := fun name hname => hproper.named _ h name (hmem name hname)
    obtain ⟨hnul, hempty⟩ := text_of_resolve hbase
    have hnul' : '\x00' ∉ (base.below names).text.toList := by
      rw [Path.nul_mem_iff] at hnul ⊢
      rw [Path.steps_path_below hempty hnames]
      rintro ⟨piece, hpiece, hzero⟩
      rcases List.mem_append.mp hpiece with hpiece | hpiece
      · exact hnul ⟨piece, hpiece, hzero⟩
      · exact hproper.no_nul _ h piece (hmem piece hpiece) hzero
    rw [resolve_eq_walk tree hnul' (Path.below_path_below hempty hnames).not_empty hlength,
      walk_path_below hlinkless hbase hnames hsome]
    exact walk_above_file hlinkless hproper hmore h

/-- A place is below another exactly when more names follow those of the other. -/
theorem below_eq_some_iff {location : List String} :
    below? top location = some names ↔ names ≠ [] ∧ location = top ++ names := by
  unfold below?
  constructor
  · intro h
    split at h
    case isTrue hbelow =>
      obtain ⟨rest, rfl⟩ := List.isPrefixOf_iff_prefix.mp hbelow.1
      obtain rfl : rest = names := by simpa using h
      exact ⟨List.length_pos_iff.mp (by simpa using hbelow.2), rfl⟩
    case isFalse => cases h
  · rintro ⟨hsome, rfl⟩
    rw [if_pos ⟨by simp, by simpa using List.length_pos_iff.mpr hsome⟩, List.drop_left]

/-- The files below a folder are the files whose locations begin with that of the folder. -/
theorem mem_files_below_iff :
    names ∈ tree.filesBelow base ↔ ∃ top bytes, tree.resolve base = .ok (.inside top, .folder) ∧ names ≠ [] ∧
      (top ++ names, Node.file bytes) ∈ tree.entries := by
  unfold filesBelow
  constructor
  · intro h
    split at h
    case h_1 top hresolve =>
      obtain ⟨⟨location, node⟩, hentry, hbelow⟩ := List.mem_filterMap.mp h
      cases node with
      | folder | link => cases hbelow
      | file bytes =>
          obtain ⟨hsome, rfl⟩ := below_eq_some_iff.mp hbelow
          exact ⟨top, bytes, hresolve, hsome, hentry⟩
    case h_2 => cases h
  · rintro ⟨top, bytes, hresolve, hsome, hentry⟩
    rw [hresolve]
    exact List.mem_filterMap.mpr ⟨_, hentry, below_eq_some_iff.mpr ⟨hsome, rfl⟩⟩

/-- In a proper tree, the files below a folder are told once. -/
theorem nodup_files_below (hproper : tree.Proper) (folder : Path) : (tree.filesBelow folder).Nodup := by
  unfold filesBelow
  split
  case h_2 => exact List.nodup_nil
  case h_1 top _ =>
    refine List.pairwise_filterMap.mpr ((List.pairwise_map.mp hproper.distinct).imp ?_)
    rintro ⟨location, node⟩ ⟨location', node'⟩ hapart names hnames names' hnames' rfl
    cases node with
    | folder | link => cases hnames
    | file bytes =>
        cases node' with
        | folder | link => cases hnames'
        | file bytes' =>
            obtain ⟨-, hlocation⟩ := below_eq_some_iff.mp hnames
            obtain ⟨-, hlocation'⟩ := below_eq_some_iff.mp hnames'
            exact hapart (hlocation.trans hlocation'.symm)

end FileTree

end TestMeasures
