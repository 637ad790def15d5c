import Mathlib.Data.List.TakeWhile
import TestMeasures.Proofs.MovedTree
import TestMeasures.Proofs.SettingOrigins

/-!
# A configuration in a tree that is moved

The folder of a configuration file is found from the spelling of its path alone: `Path.parent_moved` follows
it through the move, also where the path has no folder and report patterns start from `.`. What the file
says is the same in both places (`ImportConfig.load_moved`), and patterns start from folders that stand for
each other.
-/

namespace TestMeasures

namespace Path

/-- Pieces up to the last one that says something. -/
def upToStep (pieces : List String) : List String :=
  (pieces.reverse.dropWhile silent).reverse

/-- The text of the parent of a path with these pieces in front of its last step. -/
def parentText : List String → String
  | [] => ""
  | first :: more => "/".intercalate (first :: upToStep more)

/-- Pieces up to the last step of two lists are those of the second, if it has a step. -/
theorem up_to_step_append (pieces others : List String) :
    upToStep (pieces ++ others) =
      if upToStep others = [] then upToStep pieces else pieces ++ upToStep others := by
  unfold upToStep
  rw [List.reverse_append, List.dropWhile_append]
  by_cases h : others.reverse.dropWhile silent = [] <;> simp [h]

/-- Pieces up to the last step start with the first piece, unless that is all there is and it is silent.
-/
theorem up_to_step_cons (piece : String) (rest : List String) :
    upToStep (piece :: rest) =
      if upToStep rest = [] ∧ silent piece = true then [] else piece :: upToStep rest := by
  rw [← List.singleton_append, up_to_step_append]
  cases h : silent piece with
  | true => simp [upToStep, h]
  | false => by_cases hrest : upToStep rest = [] <;> simp [upToStep, h] at hrest ⊢

/-- The pieces up to the last step are some of the pieces. -/
theorem mem_of_mem_up_to_step {piece : String} {pieces : List String} (h : piece ∈ upToStep pieces) :
    piece ∈ pieces :=
  List.mem_reverse.mp ((List.dropWhile_sublist _).subset (List.mem_reverse.mp h))

/-- Pieces that are all steps stay as they are. -/
theorem up_to_step_of_steps {pieces : List String} (h : ∀ piece ∈ pieces, silent piece = false) :
    upToStep pieces = pieces := by
  induction pieces with
  | nil => rfl
  | cons piece rest ih =>
      obtain ⟨hpiece, hrest⟩ := List.forall_mem_cons.mp h
      rw [up_to_step_cons, ih hrest, if_neg (by simp [hpiece])]

/-- Where one of the pieces says something, one of them is the last that does. -/
theorem exists_last_step {pieces : List String} (h : ∃ piece ∈ pieces, silent piece = false) :
    ∃ before last after, pieces = before ++ last :: after ∧ silent last = false ∧
      ∀ piece ∈ after, silent piece = true := by
  induction pieces with
  | nil => simp at h
  | cons piece rest ih =>
      by_cases hrest : ∃ other ∈ rest, silent other = false
      · obtain ⟨before, last, after, rfl, hlast, hafter⟩ := ih hrest
        exact ⟨piece :: before, last, after, rfl, hlast, hafter⟩
      · have hafter : ∀ other ∈ rest, silent other = true := by simpa using hrest
        refine ⟨[], piece, rest, rfl, ?_, hafter⟩
        obtain ⟨other, hother, hsays⟩ := h
        rcases List.mem_cons.mp hother with rfl | hother
        · exact hsays
        · exact absurd ⟨other, hother, hsays⟩ hrest

variable {folders before after : List String} {last : String} {path path' : Path}

/-- The parent of a relative path is what stands in front of its last step. -/
theorem parent_of_step (hrelative : path.isAbsolute = false) (hpieces : path.pieces = before ++ last :: after)
    (hlast : silent last = false) (hafter : ∀ piece ∈ after, silent piece = true) :
    path.parent? = some ⟨parentText before⟩ := by
  have hend : after.reverse.dropWhile silent = [] :=
    List.dropWhile_eq_nil_iff.mpr fun piece hpiece => hafter piece (List.mem_reverse.mp hpiece)
  unfold parent?
  rw [if_neg (by simp [hrelative]), hpieces]
  cases before with
  | nil =>
      have hempty : last ≠ "" := by
        rintro rfl
        cases hlast
      simp [hend, hempty, parentText]
  | cons first more =>
      simp [hend, List.dropWhile_append, hlast, parentText, upToStep]

/-- The last component of a relative path is that of its last step. -/
theorem last_component_of_step (hrelative : path.isAbsolute = false)
    (hpieces : path.pieces = before ++ last :: after) (hlast : silent last = false)
    (hafter : ∀ piece ∈ after, silent piece = true) :
    path.components.getLast? = Component.ofPiece? last := by
  have hnone : after.filterMap Component.ofPiece? = [] := by
    rw [List.filterMap_eq_nil_iff]
    intro piece hpiece
    have hsilent : piece = "" ∨ piece = "." := by simpa [silent] using hafter piece hpiece
    simp [Component.ofPiece?, hsilent]
  obtain ⟨component, hcomponent⟩ : ∃ component, Component.ofPiece? last = some component := by
    have hsays : ¬ (last = "" ∨ last = ".") := by simpa [silent] using hlast
    unfold Component.ofPiece?
    rw [if_neg hsays]
    split <;> exact ⟨_, rfl⟩
  have hdot : last ≠ "." := by
    rintro rfl
    cases hlast
  unfold components
  rw [hpieces]
  cases before with
  | nil => simp [hrelative, hdot, hcomponent, hnone]
  | cons first more =>
      simp [hcomponent, hnone]

/-- The text of folders and the pieces behind them. -/
theorem intercalate_folders (hfolders : FolderNames folders) {pieces : List String} (h : pieces ≠ []) :
    "/".intercalate (folders ++ pieces) = (ofFolders folders).text ++ "/" ++ "/".intercalate pieces :=
  String.intercalate_append_of_ne_nil hfolders.nonempty h

/-- The text in front of a path's last step stands for that before the move. Where nothing is in front, the
folders are. -/
theorem parent_text_moved (hfolders : FolderNames folders) (hfirst : before.head? ≠ some "")
    (hslash : ∀ piece ∈ before, '/' ∉ piece.toList) :
    (parentText before ≠ "" ∧ (Path.mk (parentText before)).Moved folders ⟨parentText (folders ++ before)⟩) ∨
      parentText before = "" ∧ parentText (folders ++ before) = (ofFolders folders).text := by
  obtain ⟨head, others, rfl⟩ := List.exists_cons_of_ne_nil hfolders.nonempty
  have hsays : ∀ name ∈ others, silent name = false := fun name hname =>
    silent_of_file_name (hfolders.named name (List.mem_cons_of_mem _ hname))
  cases before with
  | nil =>
      refine .inr ⟨rfl, ?_⟩
      rw [List.append_nil, parentText, up_to_step_of_steps hsays]
      rfl
  | cons first more =>
      have hfirst : first ≠ "" := fun heq => hfirst (congrArg some heq)
      rw [List.cons_append, parentText, parentText, up_to_step_append, up_to_step_cons first]
      by_cases hend : upToStep more = [] ∧ silent first = true
      · -- The first piece is a point, which gives way to the folders.
        have hpoint : first = "." := by simpa [silent, hfirst] using hend.2
        have htop : (Path.mk ("." ++ "")).Moved (head :: others) ⟨(ofFolders (head :: others)).text ++ ""⟩ :=
          .top "" (.inl rfl)
        rw [if_pos hend, if_pos rfl, up_to_step_of_steps hsays, hend.1, hpoint, String.intercalate_singleton]
        rw [String.append_empty, String.append_empty] at htop
        exact .inl ⟨by decide, htop⟩
      · have hpieces := pieces_intercalate (List.cons_ne_nil first (upToStep more)) fun piece hpiece => by
          rcases List.mem_cons.mp hpiece with rfl | hpiece
          · exact hslash piece List.mem_cons_self
          · exact hslash piece (List.mem_cons_of_mem _ (mem_of_mem_up_to_step hpiece))
        have hrelative : (Path.mk ("/".intercalate (first :: upToStep more))).isAbsolute = false := by
          by_contra habsolute
          obtain ⟨rest, hrest⟩ := pieces_of_absolute (Bool.not_eq_false _ ▸ habsolute)
          exact hfirst (List.cons.inj (hpieces.symm.trans hrest)).1
        have hempty : "/".intercalate (first :: upToStep more) ≠ "" := by
          intro hempty
          rw [hempty] at hpieces
          exact hfirst (List.cons.inj hpieces).1.symm
        simp only [if_neg hend, List.cons_ne_nil, if_false]
        rw [← List.cons_append, intercalate_folders hfolders (by simp)]
        exact .inl ⟨hempty, .below _ hrelative⟩

/-- Only the empty path begins with an empty piece without being absolute. -/
theorem first_piece_of_relative (hrelative : path.isAbsolute = false) {piece : String} {rest : List String}
    (hpieces : path.pieces = "" :: piece :: rest) : False := by
  unfold isAbsolute at hrelative
  unfold pieces at hpieces
  cases hchars : path.text.toList with
  | nil => simp [hchars, splitPieces] at hpieces
  | cons c chars =>
      have hc : c ≠ '/' := by simpa [hchars] using hrelative
      obtain ⟨head, more, hmore⟩ := List.exists_cons_of_ne_nil (split_pieces_ne_nil chars)
      simp [hchars, splitPieces, hc, hmore] at hpieces

/-- The parent of a path that says something stands for that of the same path before the move. A path without
a folder has the new folders for its parent. -/
theorem parent_moved (hfolders : FolderNames folders) (hrelative : path.isAbsolute = false)
    (hsteps : ∃ piece ∈ path.pieces, silent piece = false) :
    ∃ parent parent', path.parent? = some parent ∧
      parent? ⟨(ofFolders folders).text ++ "/" ++ path.text⟩ = some parent' ∧
      (parent.text ≠ "" ∧ parent.Moved folders parent' ∨ parent.text = "" ∧ parent' = ofFolders folders) := by
  obtain ⟨before, last, after, hpieces, hlast, hafter⟩ := exists_last_step hsteps
  obtain ⟨-, hrelative'⟩ := (Moved.below path hrelative).relative hfolders
  have hpieces' : (Path.mk ((ofFolders folders).text ++ "/" ++ path.text)).pieces =
      (folders ++ before) ++ last :: after := by
    rw [pieces_slash, pieces_of_folders hfolders, List.append_assoc]
    exact congrArg (folders ++ ·) hpieces
  have hfirst : before.head? ≠ some "" := by
    intro hhead
    obtain ⟨more, rfl⟩ := List.head?_eq_some_iff.mp hhead
    cases more with
    | nil => exact first_piece_of_relative hrelative hpieces
    | cons piece more => exact first_piece_of_relative hrelative hpieces
  have hslash : ∀ piece ∈ before, '/' ∉ piece.toList := fun piece hpiece =>
    no_slash_of_mem_pieces (hpieces ▸ List.mem_append_left _ hpiece)
  refine ⟨_, _, parent_of_step hrelative hpieces hlast hafter,
    parent_of_step hrelative' hpieces' hlast hafter, ?_⟩
  exact (parent_text_moved hfolders hfirst hslash).imp_right fun ⟨hnone, htext⟩ => ⟨hnone, congrArg mk htext⟩

/-- A path that says something has its last component behind the move. -/
theorem last_component_moved (hfolders : FolderNames folders) (hrelative : path.isAbsolute = false)
    (hsteps : ∃ piece ∈ path.pieces, silent piece = false) :
    (Path.mk ((ofFolders folders).text ++ "/" ++ path.text)).components.getLast? =
      path.components.getLast? := by
  obtain ⟨before, last, after, hpieces, hlast, hafter⟩ := exists_last_step hsteps
  obtain ⟨-, hrelative'⟩ := (Moved.below path hrelative).relative hfolders
  have hpieces' : (Path.mk ((ofFolders folders).text ++ "/" ++ path.text)).pieces =
      (folders ++ before) ++ last :: after := by
    rw [pieces_slash, pieces_of_folders hfolders, List.append_assoc]
    exact congrArg (folders ++ ·) hpieces
  rw [last_component_of_step hrelative hpieces hlast hafter,
    last_component_of_step hrelative' hpieces' hlast hafter]

end Path

namespace ImportConfig

variable {folders : List String} {tree : FileTree} {file : Path}

/-- A path ends in a name that it says itself. -/
theorem slash_not_mem_last {name : String} (h : file.components.getLast? = some (.name name)) :
    '/' ∉ name.toList ∧ ∃ piece ∈ file.pieces, Path.silent piece = false := by
  have hmem : Path.Component.name name ∈ file.components := List.mem_of_getLast? h
  refine ⟨(Path.text_of_mem_components hmem (by simp) (by simp)).1, ?_⟩
  have hstep : name ∈ Path.steps file.pieces := by
    rw [Path.steps_pieces]
    exact List.mem_filterMap.mpr ⟨_, hmem, rfl⟩
  obtain ⟨hpiece, hsays⟩ := List.mem_filter.mp hstep
  exact ⟨name, hpiece, by simpa using hsays⟩

/-- The path with `.toml` behind its last name stands for that of the same path before the move. -/
theorem with_extension_moved (hfolders : FolderNames folders) (hrelative : file.isAbsolute = false)
    (hsteps : ∃ piece ∈ file.pieces, Path.silent piece = false) :
    (withExtension? file = none ∧
      withExtension? ⟨(Path.ofFolders folders).text ++ "/" ++ file.text⟩ = none) ∨
    ∃ other other', withExtension? file = some other ∧
      withExtension? ⟨(Path.ofFolders folders).text ++ "/" ++ file.text⟩ = some other' ∧
      other.Moved folders other' := by
  unfold withExtension?
  rw [Path.last_component_moved hfolders hrelative hsteps]
  split
  case h_2 => exact .inl ⟨rfl, rfl⟩
  case h_1 name hname =>
    obtain ⟨parent, parent', hparent, hparent', hmoved⟩ := Path.parent_moved hfolders hrelative hsteps
    have hslash : '/' ∉ (name ++ ".toml").toList := by
      rw [String.toList_append, List.mem_append, not_or]
      exact ⟨(slash_not_mem_last hname).1, by decide⟩
    have hadded := Path.relative_of_no_slash hslash
    refine .inr ⟨_, _, rfl, rfl, ?_⟩
    rw [hparent, hparent', Option.getD_some, Option.getD_some]
    rcases hmoved with ⟨hempty, hmoved⟩ | ⟨hempty, rfl⟩
    · exact hmoved.join hfolders hempty hadded
    · have htext : parent.join ⟨name ++ ".toml"⟩ = ⟨name ++ ".toml"⟩ := by
        rw [Path.join, if_neg (by simp [hadded]), if_pos (.inl hempty), hempty, String.empty_append]
      rw [htext, Path.join_of_folders hfolders hadded]
      exact .below _ hadded

/-- The folder of a configuration file stands for that of the same file before the move, also where the path
has no folder. -/
theorem folder_of_moved (hfolders : FolderNames folders) (hrelative : file.isAbsolute = false)
    (hsteps : ∃ piece ∈ file.pieces, Path.silent piece = false) :
    (folderOf file).text ≠ "" ∧
      (folderOf file).Moved folders (folderOf ⟨(Path.ofFolders folders).text ++ "/" ++ file.text⟩) := by
  obtain ⟨parent, parent', hparent, hparent', hmoved⟩ := Path.parent_moved hfolders hrelative hsteps
  unfold folderOf
  simp only [hparent, hparent']
  rcases hmoved with ⟨hempty, hmoved⟩ | ⟨hempty, rfl⟩
  · rw [if_neg hempty, if_neg (hmoved.not_empty hfolders)]
    exact ⟨hempty, hmoved⟩
  · have htop : (Path.mk ("." ++ "")).Moved folders ⟨(Path.ofFolders folders).text ++ ""⟩ :=
      .top "" (.inl rfl)
    rw [String.append_empty, String.append_empty] at htop
    rw [if_pos hempty, if_neg (Path.of_folders_not_empty hfolders)]
    exact ⟨by decide, htop⟩

/-- The bytes of a configuration file, if there is one. -/
def contents? (tree : FileTree) (file : Path) : Option (List UInt8) :=
  (locate? tree file).bind fun found => (tree.read found).toOption

/-- The paths at which a configuration is looked for. -/
def lookups (tree : FileTree) (file : Path) : List Path :=
  file :: if tree.isFile file then [] else (withExtension? file).toList

/-- The contents of a configuration file are those of the path or, if nothing can be read there, of the path
with `.toml` behind it. -/
theorem contents_eq (tree : FileTree) (file : Path) :
    contents? tree file = ((tree.read file).toOption).or
      ((withExtension? file).bind fun other => (tree.read other).toOption) := by
  unfold contents? locate?
  cases hread : (tree.read file).toOption with
  | some bytes =>
      have hfile : tree.isFile file = true := by rw [FileTree.is_file_eq, hread]; rfl
      rw [if_pos hfile, Option.bind_some, hread, Option.some_or]
  | none =>
      have hfile : ¬ tree.isFile file = true := by rw [FileTree.is_file_eq, hread]; simp
      rw [if_neg hfile, Option.none_or]
      cases withExtension? file with
      | none => rfl
      | some other =>
          rw [Option.filter_some, Option.bind_some, FileTree.is_file_eq]
          cases hother : (tree.read other).toOption <;> simp [hother]

/-- The pieces of a path beside the last of folders. -/
theorem pieces_beside {above : List String} {last name : String} (hfolders : FolderNames (above ++ [last]))
    (hname : '/' ∉ name.toList) :
    ((Path.mk (Path.parentText above)).join ⟨name⟩).pieces = above ++ [name] := by
  have hrelative := Path.relative_of_no_slash hname
  cases above with
  | nil => simp [Path.parentText, Path.join, hrelative, Path.pieces_of_no_slash hname]
  | cons first more =>
      have hin : ∀ name ∈ first :: more, name ∈ first :: more ++ [last] := fun name =>
        List.mem_append_left [last]
      have habove : FolderNames (first :: more) :=
        ⟨List.cons_ne_nil first more, fun name h => hfolders.named name (hin name h),
          fun name h => hfolders.short name (hin name h), fun name h => hfolders.no_nul name (hin name h)⟩
      have hsays : ∀ name ∈ more, Path.silent name = false := fun name h =>
        Path.silent_of_file_name (habove.named name (List.mem_cons_of_mem first h))
      have htext : Path.mk (Path.parentText (first :: more)) = Path.ofFolders (first :: more) := by
        rw [Path.parentText, Path.up_to_step_of_steps hsays]
        rfl
      rw [htext, Path.join_of_folders habove hrelative, Path.pieces_slash, Path.pieces_of_no_slash hname]
      exact congrArg (· ++ [name]) (Path.pieces_of_folders habove)

/-- A path that only says where the tree is has nothing beside it when the tree is moved. -/
theorem read_beside_folders (hfolders : FolderNames folders) (hrelative : file.isAbsolute = false)
    (hsilent : ∀ piece ∈ file.pieces, Path.silent piece = true) {other : Path}
    (h : withExtension? ⟨(Path.ofFolders folders).text ++ "/" ++ file.text⟩ = some other) :
    ((tree.movedBelow folders).read other).toOption = none := by
  obtain ⟨above, last, rfl⟩ := (List.eq_nil_or_concat folders).resolve_left hfolders.nonempty
  rw [List.concat_eq_append] at *
  have hlast := hfolders.named last (by simp)
  have hsays := Path.silent_of_file_name hlast
  obtain ⟨-, hrelative'⟩ := (Path.Moved.below file hrelative).relative hfolders
  have hpieces' : (Path.mk ((Path.ofFolders (above ++ [last])).text ++ "/" ++ file.text)).pieces =
      above ++ last :: file.pieces := by
    rw [Path.pieces_slash, Path.pieces_of_folders hfolders, List.append_assoc, List.singleton_append]
  have hname : Path.Component.ofPiece? last = some (.name last) := by
    simp [Path.Component.ofPiece?, hlast.not_empty, hlast.not_current, hlast.not_parent]
  unfold withExtension? at h
  rw [Path.last_component_of_step hrelative' hpieces' hsays hsilent, hname,
    Path.parent_of_step hrelative' hpieces' hsays hsilent, Option.getD_some] at h
  obtain rfl := Option.some.inj h
  have hbeside : IsFileName (last ++ ".toml") ∧ last ++ ".toml" ≠ last := by
    have hsize : (last ++ ".toml").utf8ByteSize = last.utf8ByteSize + 5 := String.utf8ByteSize_append
    have hlong : ∀ text : String, text.utf8ByteSize < last.utf8ByteSize + 5 → last ++ ".toml" ≠ text := by
      rintro text hless rfl
      omega
    have hslash : '/' ∉ (last ++ ".toml").toList := by
      rw [String.toList_append, List.mem_append, not_or]
      exact ⟨hlast.no_slash, by decide⟩
    exact ⟨⟨hlong "" (Nat.succ_pos _), hlong "." (by change 1 < _; omega), hlong ".." (by change 2 < _; omega),
      hslash⟩, hlong last (by omega)⟩
  exact FileTree.read_beside tree hfolders (pieces_beside hfolders hbeside.1.no_slash) hbeside.1 hbeside.2

/-- The same is read from a configuration file when the tree is moved. -/
theorem contents_moved (hfolders : FolderNames folders)
    (hstays : ∀ path ∈ lookups tree file, tree.Stays path)
    (hlength : ∀ path ∈ lookups (tree.movedBelow folders) ⟨(Path.ofFolders folders).text ++ "/" ++ file.text⟩,
      path.text.utf8ByteSize ≤ FileTree.pathLimit) :
    contents? (tree.movedBelow folders) ⟨(Path.ofFolders folders).text ++ "/" ++ file.text⟩ =
      contents? tree file := by
  obtain ⟨hfile, hother⟩ := List.forall_mem_cons.mp hstays
  obtain ⟨hshort, hotherShort⟩ := List.forall_mem_cons.mp hlength
  have hread := FileTree.read_moved hfolders (.below file hfile.1) hfile hshort
  rw [contents_eq, contents_eq, hread]
  cases hbytes : (tree.read file).toOption with
  | some bytes => rw [Option.some_or, Option.some_or]
  | none =>
      rw [Option.none_or, Option.none_or]
      rw [FileTree.is_file_eq, hbytes] at hother
      rw [FileTree.is_file_eq, hread, hbytes] at hotherShort
      by_cases hsteps : ∃ piece ∈ file.pieces, Path.silent piece = false
      · rcases with_extension_moved hfolders hfile.1 hsteps with ⟨h, h'⟩ | ⟨other, other', h, h', hmoved⟩
        · rw [h, h', Option.bind_none, Option.bind_none]
        · rw [h] at hother
          rw [h'] at hotherShort
          rw [h, h', Option.bind_some, Option.bind_some]
          exact FileTree.read_moved hfolders hmoved (hother other (by simp)) (hotherShort other' (by simp))
      · have hnone : withExtension? file = none := by
          unfold withExtension?
          split
          case h_1 name hname => exact absurd (slash_not_mem_last hname).2 hsteps
          case h_2 => rfl
        rw [hnone, Option.bind_none]
        cases h' : withExtension? ⟨(Path.ofFolders folders).text ++ "/" ++ file.text⟩ with
        | none => rw [Option.bind_none]
        | some other' =>
            rw [Option.bind_some]
            exact read_beside_folders hfolders hfile.1 (by simpa using hsteps) h'

/-- Where there is something to read, the path of a configuration file says something. -/
theorem says_of_contents (h : (contents? tree file).isSome = true) :
    ∃ piece ∈ file.pieces, Path.silent piece = false := by
  rw [contents_eq] at h
  cases hread : (tree.read file).toOption with
  | some bytes =>
      have hfile : tree.isFile file = true := by rw [FileTree.is_file_eq, hread]; rfl
      obtain ⟨init, last, hpieces, hlast⟩ := FileTree.ends_in_step_of_is_file hfile
      exact ⟨last, by simp [hpieces], hlast⟩
  | none =>
      rw [hread, Option.none_or] at h
      unfold withExtension? at h
      split at h
      case h_1 name hname => exact (slash_not_mem_last hname).2
      case h_2 => simp at h

/-- A configuration, and the one that stands for it when the tree is moved: it has the same languages, and
their patterns start from where they did, unless that was told by an absolute path. -/
structure Moved (folders : List String) (config config' : ImportConfig) : Prop where
  languages : config'.languages = config.languages
  not_empty : config.baseDir.text ≠ ""
  base : config.baseDir.isAbsolute = false → config.baseDir.Moved folders config'.baseDir

/-- Sections say the same in a file and in the one that stands for it. -/
theorem of_sections_moved (hfolders : FolderNames folders) (hrelative : file.isAbsolute = false)
    (hsteps : ∃ piece ∈ file.pieces, Path.silent piece = false) (sections : Sections) :
    Option.Rel (Moved folders) (ofSections file sections).toOption
      (ofSections ⟨(Path.ofFolders folders).text ++ "/" ++ file.text⟩ sections).toOption := by
  obtain ⟨hempty, hfolder⟩ := folder_of_moved hfolders hrelative hsteps
  unfold ofSections
  split
  · exact .none
  · cases sections.importing.baseDir with
    | none => exact .some ⟨rfl, hempty, fun _ => hfolder⟩
    | some folder =>
        refine .some ⟨rfl, Path.join_not_empty hempty folder, fun habsolute => ?_⟩
        exact hfolder.join hfolders hempty (Path.relative_of_join hempty habsolute).2

/-- The sections that the contents of a file say. -/
def sections? (contents : String) : Option Sections :=
  (Toml.parse contents).bind fun document =>
    ((decode (Setting.ofDocument none document)).toOption).map Decoded.value

/-- The configuration in the contents of a file does not depend on the path that its settings are told to
come from. -/
theorem of_contents_eq (file : Path) (origin : Option String) (contents : String) :
    (ofContents file origin contents).config.toOption =
      (sections? contents).bind fun sections => (ofSections file sections).toOption := by
  unfold ofContents sections?
  cases Toml.parse contents with
  | none => rfl
  | some document =>
      rw [Option.bind_some, ← decode_of_document_alike origin]
      simp only [ofSettings]
      cases decode (Setting.ofDocument origin document) with
      | error fault => rfl
      | ok decoded =>
          cases hsections : ofSections file decoded.value <;>
            simp [hsections, Except.mapError, Except.toOption]

/-- A configuration is what the file says that is found for its path. -/
theorem load_eq (tree : FileTree) (file : Path) :
    (load tree file).config.toOption =
      (contents? tree file).bind fun bytes =>
        (sections? (Text.Utf8.decodeLossy (Text.Utf8.dropMark bytes))).bind fun sections =>
          (ofSections file sections).toOption := by
  unfold load contents?
  cases locate? tree file with
  | none => rfl
  | some found =>
      rw [Option.bind_some]
      cases hread : tree.read found with
      | error fault => simp only [hread]; rfl
      | ok bytes =>
          simp only [hread]
          exact of_contents_eq ..

/-- A configuration that can be loaded can be when the tree is moved, and stands for the same. -/
theorem load_moved (hfolders : FolderNames folders)
    (hstays : ∀ path ∈ lookups tree file, tree.Stays path)
    (hlength : ∀ path ∈ lookups (tree.movedBelow folders) ⟨(Path.ofFolders folders).text ++ "/" ++ file.text⟩,
      path.text.utf8ByteSize ≤ FileTree.pathLimit) :
    Option.Rel (Moved folders) (load tree file).config.toOption
      (load (tree.movedBelow folders) ⟨(Path.ofFolders folders).text ++ "/" ++ file.text⟩).config.toOption := by
  obtain ⟨hfile, -⟩ := List.forall_mem_cons.mp hstays
  rw [load_eq, load_eq, contents_moved hfolders hstays hlength]
  cases hcontents : contents? tree file with
  | none => exact .none
  | some bytes =>
      rw [Option.bind_some, Option.bind_some]
      cases sections? (Text.Utf8.decodeLossy (Text.Utf8.dropMark bytes)) with
      | none => exact .none
      | some sections =>
          exact of_sections_moved hfolders hfile.1 (says_of_contents (by rw [hcontents]; rfl)) sections

end ImportConfig

end TestMeasures
