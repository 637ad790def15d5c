import TestMeasures.Proofs.StraightPaths

/-!
# A tree that is moved below a new folder

`FileTree.movedBelow` puts everything in a tree below new folders, and `Path.Moved` relates a path to the
one that stands for it then. `FileTree.resolve_moved` says that the two lead to the same place, seen from
these folders, if the way never leaves the tree (`FileTree.Stays`) and the new path is not too long.
-/

namespace TestMeasures

/-- The names of folders, one inside the other, that can be made. -/
structure FolderNames (folders : List String) : Prop where
  nonempty : folders ≠ []
  named : ∀ name ∈ folders, IsFileName name
  short : ∀ name ∈ folders, name.utf8ByteSize ≤ 255
  no_nul : ∀ name ∈ folders, '\x00' ∉ name.toList

instance (folders : List String) : Decidable (FolderNames folders) :=
  decidable_of_iff (folders ≠ [] ∧ (∀ name ∈ folders, IsFileName name) ∧
      (∀ name ∈ folders, name.utf8ByteSize ≤ 255) ∧ ∀ name ∈ folders, '\x00' ∉ name.toList)
    ⟨fun ⟨nonempty, named, short, nul⟩ => ⟨nonempty, named, short, nul⟩,
      fun ⟨nonempty, named, short, nul⟩ => ⟨nonempty, named, short, nul⟩⟩

/-- A place seen from above folders that everything is moved below. -/
def Place.below (folders : List String) : Place → Place
  | .inside names => .inside (folders ++ names)
  | .outside => .outside

namespace FileTree

/-- The tree with everything in it below folders that are new. -/
def movedBelow (tree : FileTree) (folders : List String) : FileTree :=
  ⟨(folders, .folder) :: tree.entries.map fun entry => (folders ++ entry.1, entry.2)⟩

/-- Following pieces from a location does not lead above the top of the tree or along an absolute link.
Links are handed to `follow`, as in `FileTree.walk`. -/
def staysFrom (tree : FileTree) (follow : List String → List String → Bool) :
    List String → List String → Bool
  | _, [] => true
  | names, piece :: rest =>
    if piece = "" ∨ piece = "." then tree.staysFrom follow names rest
    else if piece = ".." then !names.isEmpty && tree.staysFrom follow names.dropLast rest
    else if piece.utf8ByteSize > 255 then true
    else
      match tree.node? (names ++ [piece]) with
      | none => true
      | some .folder => tree.staysFrom follow (names ++ [piece]) rest
      | some (.file _) => true
      | some (.link target) => !target.isAbsolute && follow names (target.pieces ++ rest)

/-- The same where at most so many links are followed. -/
def staysWithin (tree : FileTree) : Nat → List String → List String → Bool
  | 0 => tree.staysFrom fun _ _ => true
  | links + 1 => tree.staysFrom (tree.staysWithin links)

/-- A path is relative, and following it does not lead above the top of the tree or along an absolute
link. -/
def Stays (tree : FileTree) (path : Path) : Prop :=
  path.isAbsolute = false ∧ tree.staysWithin linkLimit [] path.pieces = true

instance (tree : FileTree) (path : Path) : Decidable (tree.Stays path) :=
  inferInstanceAs (Decidable (_ ∧ _))

section nodes

variable (tree : FileTree) (folders : List String)

/-- What stands in the tree stands in the moved tree below the folders. -/
theorem node_moved {names : List String} (h : names ≠ []) :
    (tree.movedBelow folders).node? (folders ++ names) = tree.node? names := by
  have hself : (folders == folders ++ names) = false := by simpa using h
  have hkey : ∀ key : List String, (folders ++ key == folders ++ names) = (key == names) := by
    intro key
    rw [Bool.eq_iff_iff]
    simp
  have hprefix : ∀ key : List String, (folders ++ names).isPrefixOf (folders ++ key) = names.isPrefixOf key := by
    intro key
    rw [Bool.eq_iff_iff, List.isPrefixOf_iff_prefix, List.isPrefixOf_iff_prefix,
      List.prefix_append_right_inj]
  have hshort : (folders ++ names).isPrefixOf folders = false := by
    rw [← List.append_nil folders, List.append_assoc, List.nil_append, hprefix]
    cases names with
    | nil => exact absurd rfl h
    | cons name rest => rfl
  have hempty : (folders ++ names).isEmpty = names.isEmpty := by cases names <;> simp_all
  unfold node? movedBelow
  simp only [List.find?_cons, hself, List.find?_map, Function.comp_def, hkey, List.any_cons, hshort,
    List.any_map, hprefix, hempty, Bool.false_or]
  cases tree.entries.find? fun entry => entry.1 == names <;> rfl

variable {folders}

/-- On the way to the moved tree there are folders. -/
theorem node_above {above more : List String} (h : folders = above ++ more) :
    (tree.movedBelow folders).node? above = some .folder := by
  unfold node?
  split
  case h_1 entry hfind =>
    obtain ⟨hentry, hmem⟩ := And.intro (List.find?_some hfind) (List.mem_of_find?_eq_some hfind)
    have hkey : entry.1 = above := by simpa using hentry
    -- An entry there is that of the folders, or the first one is not the one that was found.
    rcases List.mem_cons.mp hmem with rfl | hmem
    · rfl
    · obtain ⟨other, -, rfl⟩ := List.mem_map.mp hmem
      have hall : folders = above := by
        have hlength := congrArg List.length hkey
        rw [h, List.length_append, List.length_append] at hlength
        rw [h, List.eq_nil_of_length_eq_zero (by omega : more.length = 0), List.append_nil]
      obtain ⟨-, hfolder⟩ : other.1 = [] ∧ Node.folder = other.2 := by simpa [movedBelow, hall] using hfind
      rw [← hfolder]
  case h_2 =>
    have hfirst : above.isPrefixOf folders = true := List.isPrefixOf_iff_prefix.mpr (h ▸ List.prefix_append ..)
    simp [movedBelow, hfirst]

/-- Beside the last of the new folders there is nothing. -/
theorem node_beside {above : List String} {last other : String} (h : folders = above ++ [last])
    (hother : other ≠ last) : (tree.movedBelow folders).node? (above ++ [other]) = none := by
  have hprefix : ∀ key : List String, ¬ above ++ [other] <+: folders ++ key := by
    intro key hkey
    rw [h, List.append_assoc, List.prefix_append_right_inj] at hkey
    exact hother (by simpa using hkey)
  have hentries : ∀ entry ∈ (tree.movedBelow folders).entries, ¬ above ++ [other] <+: entry.1 := by
    intro entry hentry
    rcases List.mem_cons.mp hentry with rfl | hentry
    · simpa using hprefix []
    · obtain ⟨moved, -, rfl⟩ := List.mem_map.mp hentry
      exact hprefix moved.1
  unfold node?
  split
  case h_1 entry hfind =>
    have hkey : entry.1 = above ++ [other] := by simpa using List.find?_some hfind
    exact absurd (hkey ▸ List.prefix_refl _) (hentries entry (List.mem_of_find?_eq_some hfind))
  case h_2 =>
    rw [if_neg]
    simp only [Bool.or_eq_true, List.isEmpty_iff, List.any_eq_true, List.isPrefixOf_iff_prefix, not_or,
      not_exists, not_and]
    exact ⟨by simp, hentries⟩

end nodes

section walks

variable {tree : FileTree} {folders : List String}

/-- What was found, seen from above the folders. -/
def foundBelow (folders : List String) (found : Place × Node) : Place × Node :=
  (found.1.below folders, found.2)

/-- Names of folders that are there lead into them. -/
theorem walk_folders (hfolders : FolderNames folders)
    (follow : Place → List String → Except FileFault (Place × Node)) {above more behind : List String}
    (h : folders = above ++ more ++ behind) (rest : List String) :
    (tree.movedBelow folders).walk follow (.inside above) (more ++ rest) =
      (tree.movedBelow folders).walk follow (.inside (above ++ more)) rest := by
  induction more generalizing above with
  | nil => rw [List.append_nil, List.nil_append]
  | cons name more ih =>
      have hmem : name ∈ folders := by simp [h]
      have hname := hfolders.named name hmem
      have hsilent : ¬ (name = "" ∨ name = ".") := not_or.mpr ⟨hname.not_empty, hname.not_current⟩
      have hlong : ¬ name.utf8ByteSize > 255 := Nat.not_lt.mpr (hfolders.short name hmem)
      have hnext : folders = (above ++ [name]) ++ (more ++ behind) := by simp [h]
      have hnode := tree.node_above hnext
      have hrest := ih (hnext.trans (List.append_assoc ..).symm)
      rw [List.append_assoc, List.singleton_append] at hrest
      rw [List.cons_append, ← hrest]
      conv_lhs => unfold walk
      simp only [if_neg hsilent, if_neg hname.not_parent, if_neg hlong, hnode]

/-- A walk that stays in the tree leads to the same place when the tree is moved. -/
theorem walk_moved {follow follow' : Place → List String → Except FileFault (Place × Node)}
    {stays : List String → List String → Bool}
    (hfollow : ∀ names pieces, stays names pieces = true →
      follow' (.inside (folders ++ names)) pieces =
        (follow (.inside names) pieces).map (foundBelow folders))
    {names pieces : List String} (h : tree.staysFrom stays names pieces = true) :
    (tree.movedBelow folders).walk follow' (.inside (folders ++ names)) pieces =
      (tree.walk follow (.inside names) pieces).map (foundBelow folders) := by
  induction pieces generalizing names with
  | nil => rfl
  | cons piece rest ih =>
      unfold staysFrom at h
      unfold walk
      by_cases hsilent : piece = "" ∨ piece = "."
      · simp only [if_pos hsilent] at h ⊢
        exact ih h
      by_cases hup : piece = ".."
      · simp only [if_neg hsilent, if_pos hup, Bool.and_eq_true, Bool.not_eq_true'] at h ⊢
        obtain ⟨hnames, h⟩ := h
        have hnames : names ≠ [] := List.isEmpty_eq_false_iff.mp hnames
        obtain ⟨name, others, rfl⟩ := List.exists_cons_of_ne_nil hnames
        have hrest := ih h
        rw [← List.dropLast_append_of_ne_nil hnames] at hrest
        cases hall : folders ++ name :: others with
        | nil => simp at hall
        | cons first more =>
            rw [hall] at hrest
            exact hrest
      · simp only [if_neg hsilent, if_neg hup] at h ⊢
        by_cases hlong : piece.utf8ByteSize > 255
        · simp only [if_pos hlong]
          rfl
        · simp only [if_neg hlong, List.append_assoc] at h ⊢
          rw [tree.node_moved folders (by simp)]
          cases hnode : tree.node? (names ++ [piece]) with
          | none => rfl
          | some node =>
              simp only [hnode] at h
              cases node with
              | folder => exact ih h
              | file bytes =>
                  simp only
                  split <;> simp [Except.map, foundBelow, Place.below]
              | link target =>
                  obtain ⟨habsolute, h⟩ : target.isAbsolute = false ∧ stays names _ = true := by simpa using h
                  simp only [habsolute, Bool.false_eq_true, if_false]
                  exact hfollow _ _ h

/-- Following at most so many links, what stays in the tree leads to the same place when the tree is
moved. -/
theorem resolve_from_moved (folders : List String) (links : Nat) {names pieces : List String}
    (h : tree.staysWithin links names pieces = true) :
    (tree.movedBelow folders).resolveFrom links (.inside (folders ++ names)) pieces =
      (tree.resolveFrom links (.inside names) pieces).map (foundBelow folders) := by
  induction links generalizing names pieces with
  | zero => exact walk_moved (fun _ _ _ => rfl) h
  | succ links ih => exact walk_moved (fun _ _ => ih) h

end walks

end FileTree

namespace Path

/-- The path of the last of folders, one inside the other. -/
def ofFolders (folders : List String) : Path :=
  ⟨"/".intercalate folders⟩

/-- A path, and the path that stands for it when the tree is moved below folders. A leading `.` that stands
for the top of the tree may give way to the folders. -/
inductive Moved (folders : List String) : Path → Path → Prop where
  | below (path : Path) (h : path.isAbsolute = false) :
      Moved folders path ⟨(ofFolders folders).text ++ "/" ++ path.text⟩
  | top (rest : String) (h : rest = "" ∨ rest.toList.head? = some '/') :
      Moved folders ⟨"." ++ rest⟩ ⟨(ofFolders folders).text ++ rest⟩

/-- Pieces without a slash come back when they are joined by slashes and split. -/
theorem split_pieces_intercalate {pieces : List (List Char)} (h : pieces ≠ [])
    (hslash : ∀ piece ∈ pieces, '/' ∉ piece) : splitPieces (['/'].intercalate pieces) = pieces := by
  induction pieces with
  | nil => exact absurd rfl h
  | cons piece rest ih =>
      obtain ⟨hpiece, hrest⟩ := List.forall_mem_cons.mp hslash
      cases rest with
      | nil => simpa using split_pieces_of_no_slash hpiece
      | cons other rest =>
          rw [List.intercalate_cons_cons, List.append_assoc, List.singleton_append, split_pieces_append,
            split_pieces_of_no_slash hpiece, ih (by simp) hrest, List.singleton_append]

/-- A text of pieces has these pieces. -/
theorem pieces_intercalate {pieces : List String} (h : pieces ≠ [])
    (hslash : ∀ piece ∈ pieces, '/' ∉ piece.toList) : (Path.mk ("/".intercalate pieces)).pieces = pieces := by
  have hsplit : splitPieces (['/'].intercalate (pieces.map String.toList)) = pieces.map String.toList := by
    refine split_pieces_intercalate (by simpa using h) fun piece hpiece => ?_
    obtain ⟨text, htext, rfl⟩ := List.mem_map.mp hpiece
    exact hslash text htext
  rw [Path.pieces, String.toList_intercalate, show "/".toList = ['/'] from rfl, hsplit, List.map_map]
  exact List.map_id'' (fun _ => String.ofList_toList) pieces

/-- The pieces of a path in front of a slash, and those behind it. -/
theorem pieces_slash (before after : String) :
    (Path.mk (before ++ "/" ++ after)).pieces = (Path.mk before).pieces ++ (Path.mk after).pieces := by
  simp [pieces, split_pieces_append]

section moved

variable {folders : List String} {path path' : Path}

/-- The pieces of a path of folders are the folders. -/
theorem pieces_of_folders (hfolders : FolderNames folders) : (ofFolders folders).pieces = folders :=
  pieces_intercalate hfolders.nonempty fun name hname => (hfolders.named name hname).no_slash

/-- The path of folders begins and ends with a character other than a slash. -/
theorem of_folders_text (hfolders : FolderNames folders) :
    (∃ c, c ≠ '/' ∧ (ofFolders folders).text.toList.head? = some c) ∧
      ∃ c, c ≠ '/' ∧ (ofFolders folders).text.toList.getLast? = some c := by
  obtain ⟨hnonempty, hnamed, -, -⟩ := hfolders
  have hends : ∀ name, IsFileName name → ∃ first last, first ≠ '/' ∧ last ≠ '/' ∧
      name.toList.head? = some first ∧ name.toList.getLast? = some last := by
    intro name hname
    have hchars : name.toList ≠ [] := String.toList_eq_nil_iff.not.mpr hname.not_empty
    exact ⟨_, _, fun heq => hname.no_slash (heq ▸ List.head_mem hchars),
      fun heq => hname.no_slash (heq ▸ List.getLast_mem hchars), List.head?_eq_some_head hchars,
      List.getLast?_eq_some_getLast hchars⟩
  induction folders with
  | nil => exact absurd rfl hnonempty
  | cons name rest ih =>
      obtain ⟨hname, hrest⟩ := List.forall_mem_cons.mp hnamed
      obtain ⟨first, last, hfirst, hlast, hhead, hend⟩ := hends name hname
      cases rest with
      | nil =>
          rw [ofFolders, String.intercalate_singleton]
          exact ⟨⟨first, hfirst, hhead⟩, last, hlast, hend⟩
      | cons other rest =>
          obtain ⟨-, c, hc, hothers⟩ := ih (by simp) hrest
          simp only [ofFolders] at hothers
          rw [ofFolders, String.intercalate_cons_cons]
          refine ⟨⟨first, hfirst, by simp [hhead]⟩, c, hc, ?_⟩
          rw [String.toList_append, List.getLast?_append, hothers]
          rfl

/-- A path of folders is not empty. -/
theorem of_folders_not_empty (hfolders : FolderNames folders) : (ofFolders folders).text ≠ "" := by
  intro hempty
  obtain ⟨⟨c, -, hhead⟩, -⟩ := of_folders_text hfolders
  rw [hempty] at hhead
  cases hhead

/-- A relative path that is put below folders is the path that stands for it there. -/
theorem join_of_folders (hfolders : FolderNames folders) (h : path.isAbsolute = false) :
    (ofFolders folders).join path = ⟨(ofFolders folders).text ++ "/" ++ path.text⟩ := by
  obtain ⟨-, c, hc, hlast⟩ := of_folders_text hfolders
  unfold join
  rw [if_neg (by simp [h]), if_neg]
  rintro (hempty | hslash)
  · exact of_folders_not_empty hfolders hempty
  · exact hc (Option.some.inj (hlast.symm.trans hslash))

/-- Both paths lead on over the same pieces, from the top of the tree and from the folders. -/
theorem Moved.pieces (hfolders : FolderNames folders) (h : Moved folders path path') :
    ∃ rest, path'.pieces = folders ++ rest ∧ (path.pieces = rest ∨ path.pieces = "." :: rest) := by
  cases h with
  | below _ h =>
      refine ⟨path.pieces, ?_, .inl rfl⟩
      rw [pieces_slash, pieces_of_folders hfolders]
  | top rest h =>
      rcases h with rfl | h
      · refine ⟨[], ?_, .inr rfl⟩
        rw [String.append_empty, List.append_nil]
        exact pieces_of_folders hfolders
      · obtain ⟨chars, hchars⟩ : ∃ chars, rest.toList = '/' :: chars := List.head?_eq_some_iff.mp h
        obtain rfl : rest = "/" ++ String.ofList chars := by
          simp [← String.toList_inj, hchars]
        refine ⟨(Path.mk (String.ofList chars)).pieces, ?_, .inr ?_⟩
        · rw [← String.append_assoc, pieces_slash, pieces_of_folders hfolders]
        · rw [← String.append_assoc, pieces_slash]
          rfl

/-- Neither path is absolute. -/
theorem Moved.relative (hfolders : FolderNames folders) (h : Moved folders path path') :
    path.isAbsolute = false ∧ path'.isAbsolute = false := by
  obtain ⟨⟨c, hc, hhead⟩, -⟩ := of_folders_text hfolders
  cases h with
  | below _ h => exact ⟨h, by simp [isAbsolute, hhead, hc]⟩
  | top rest h => exact ⟨by simp [isAbsolute], by simp [isAbsolute, hhead, hc]⟩

/-- A moved path is not empty. -/
theorem Moved.not_empty (hfolders : FolderNames folders) (h : Moved folders path path') : path'.text ≠ "" := by
  have hempty := of_folders_not_empty hfolders
  cases h with
  | below | top => simp [hempty]

/-- The path gets longer. -/
theorem Moved.size_le (hfolders : FolderNames folders) (h : Moved folders path path') :
    path.text.utf8ByteSize ≤ path'.text.utf8ByteSize := by
  have hsize : (ofFolders folders).text.utf8ByteSize ≠ 0 := fun hzero =>
    of_folders_not_empty hfolders (String.utf8ByteSize_eq_zero_iff.mp hzero)
  have hpoint : ".".utf8ByteSize = 1 := rfl
  cases h with
  | below | top => simp only [String.utf8ByteSize_append]; omega

/-- The path has a zero character where it had one. -/
theorem Moved.nul_iff (hfolders : FolderNames folders) (h : Moved folders path path') :
    '\x00' ∈ path'.text.toList ↔ '\x00' ∈ path.text.toList := by
  have hnul : '\x00' ∉ (ofFolders folders).text.toList := by
    rw [nul_mem_iff, pieces_of_folders hfolders]
    rintro ⟨name, hname, hmem⟩
    exact hfolders.no_nul name (List.mem_filter.mp hname).1 hmem
  cases h with
  | below | top => simp [hnul]

/-- Both paths end in a slash or neither does. -/
theorem Moved.slash_iff (hfolders : FolderNames folders) (h : Moved folders path path')
    (hpath : path.text ≠ "") :
    path'.text.toList.getLast? = some '/' ↔ path.text.toList.getLast? = some '/' := by
  obtain ⟨-, c, hc, hlast⟩ := of_folders_text hfolders
  have hbehind : ∀ before rest : String, rest ≠ "" →
      (before ++ rest).toList.getLast? = rest.toList.getLast? := by
    intro before rest hrest
    rw [String.toList_append, List.getLast?_append_of_ne_nil _ (String.toList_eq_nil_iff.not.mpr hrest)]
  cases h with
  | below => rw [hbehind _ _ hpath]
  | top rest =>
      by_cases hrest : rest = ""
      · simp [hrest, hlast, hc]
      · rw [hbehind _ _ hrest, hbehind _ _ hrest]

/-- A relative path is put behind a slash, if none is there. -/
theorem join_eq {base addition : Path} (hbase : base.text ≠ "") (hrelative : addition.isAbsolute = false) :
    base.join addition =
      ⟨base.text ++ ((if base.text.toList.getLast? = some '/' then "" else "/") ++ addition.text)⟩ := by
  unfold join
  rw [if_neg (by simp [hrelative])]
  by_cases hslash : base.text.toList.getLast? = some '/'
  · simp [hslash]
  · simp [hslash, hbase, String.append_assoc]

/-- A path that is not empty does not become so by appending to it. -/
theorem join_not_empty (hpath : path.text ≠ "") (addition : Path) : (path.join addition).text ≠ "" := by
  unfold join
  split
  case isTrue habsolute =>
    intro hempty
    rw [isAbsolute, hempty] at habsolute
    cases habsolute
  case isFalse => split <;> simp [hpath]

/-- A path that is relative once something is put below it was relative, and so is what was put there. -/
theorem relative_of_join (hpath : path.text ≠ "") {addition : Path}
    (h : (path.join addition).isAbsolute = false) :
    path.isAbsolute = false ∧ addition.isAbsolute = false := by
  cases hadd : addition.isAbsolute with
  | true =>
      rw [Path.join, if_pos hadd, hadd] at h
      cases h
  | false => exact ⟨is_absolute_join hpath hadd ▸ h, rfl⟩

/-- What is put below the one path stands below the other. -/
theorem Moved.join (hfolders : FolderNames folders) (h : Moved folders path path') (hpath : path.text ≠ "")
    {addition : Path} (hrelative : addition.isAbsolute = false) :
    Moved folders (path.join addition) (path'.join addition) := by
  have habsolute := is_absolute_join hpath hrelative
  have hslash := h.slash_iff hfolders hpath
  rw [(h.relative hfolders).1] at habsolute
  rw [join_eq hpath hrelative] at habsolute ⊢
  rw [join_eq (h.not_empty hfolders) hrelative]
  simp only [hslash]
  cases h with
  | below =>
      rw [String.append_assoc]
      exact .below _ habsolute
  | top rest h =>
      rw [String.append_assoc, String.append_assoc]
      refine .top _ (.inr ?_)
      rcases h with rfl | h
      · simp
      · simp [h]

end moved

end Path

namespace FileTree

variable {tree : FileTree} {folders : List String} {path path' : Path}

/-- A path that stays in the tree leads to the same place when the tree is moved, unless it is empty or
gets too long. -/
theorem resolve_moved (hfolders : FolderNames folders) (h : path.Moved folders path') (hstays : tree.Stays path)
    (hlength : path'.text.utf8ByteSize ≤ pathLimit) (hpath : path.text ≠ "") :
    (tree.movedBelow folders).resolve path' = (tree.resolve path).map (foundBelow folders) := by
  obtain ⟨rest, hpieces', hpieces⟩ := h.pieces hfolders
  obtain ⟨habsolute, habsolute'⟩ := h.relative hfolders
  have hsize := h.size_le hfolders
  have hstart : tree.resolveFrom linkLimit (.inside []) path.pieces =
      tree.resolveFrom linkLimit (.inside []) rest ∧ tree.staysWithin linkLimit [] rest = true := by
    obtain ⟨-, hstays⟩ := hstays
    rcases hpieces with hpieces | hpieces <;> rw [hpieces] at hstays ⊢
    · exact ⟨rfl, hstays⟩
    · exact ⟨rfl, hstays⟩
  have hfollowed : (tree.movedBelow folders).resolveFrom linkLimit (.inside []) path'.pieces =
      (tree.movedBelow folders).resolveFrom linkLimit (.inside folders) rest := by
    rw [hpieces']
    exact walk_folders hfolders _ (List.append_nil folders).symm rest
  have hmoved := resolve_from_moved folders linkLimit hstart.2
  rw [List.append_nil, ← hstart.1, ← hfollowed] at hmoved
  unfold resolve
  simp only [h.nul_iff hfolders, hpath, h.not_empty hfolders, habsolute, habsolute', Nat.not_lt.mpr hlength,
    Nat.not_lt.mpr (hsize.trans hlength), if_false, Bool.false_eq_true, hmoved]
  split <;> rfl

/-- A path is that of a file where something can be read. -/
theorem is_file_eq (tree : FileTree) (path : Path) : tree.isFile path = (tree.read path).toOption.isSome := by
  unfold isFile read
  cases tree.resolve path with
  | error fault => rfl
  | ok found =>
      obtain ⟨place, node⟩ := found
      cases node <;> rfl

/-- Nothing is read at a path whose last piece says nothing. -/
theorem read_of_silent_end (tree : FileTree) (h : ¬ Path.EndsInStep path.pieces) :
    (tree.read path).toOption = none := by
  have hfile : ¬ tree.isFile path = true := fun hfile => h (ends_in_step_of_is_file hfile)
  rw [is_file_eq] at hfile
  simpa using hfile

/-- What is read at a path that stays in the tree is the same when the tree is moved. -/
theorem read_moved (hfolders : FolderNames folders) (h : path.Moved folders path') (hstays : tree.Stays path)
    (hlength : path'.text.utf8ByteSize ≤ pathLimit) :
    ((tree.movedBelow folders).read path').toOption = (tree.read path).toOption := by
  by_cases hpath : path.text = ""
  · -- The empty path leads nowhere, and what stands for it leads to the last folder.
    have hends : ∀ before : List String, ¬ Path.EndsInStep (before ++ [""]) := by
      rintro before ⟨init, last, hpieces, hlast⟩
      obtain ⟨-, hend⟩ := List.append_inj' hpieces rfl
      obtain rfl : "" = last := by simpa using hend
      cases hlast
    have hpieces : path.pieces = [] ++ [""] := by simp [Path.pieces, hpath, Path.splitPieces]
    have hpieces' : path'.pieces = folders ++ [""] := by
      cases h with
      | below _ h =>
          rw [Path.pieces_slash, Path.pieces_of_folders hfolders, hpath]
          rfl
      | top rest => simp at hpath
    rw [read_of_silent_end _ (hpieces' ▸ hends folders), read_of_silent_end _ (hpieces ▸ hends [])]
  · unfold read
    rw [resolve_moved hfolders h hstays hlength hpath]
    cases tree.resolve path with
    | error fault => rfl
    | ok found =>
        obtain ⟨place, node⟩ := found
        cases node <;> rfl

/-- There is a file in the new place exactly when there is one in the old. -/
theorem is_file_moved (hfolders : FolderNames folders) (h : path.Moved folders path') (hstays : tree.Stays path)
    (hlength : path'.text.utf8ByteSize ≤ pathLimit) :
    (tree.movedBelow folders).isFile path' = tree.isFile path := by
  rw [is_file_eq, is_file_eq, read_moved hfolders h hstays hlength]

/-- There is a folder in the new place exactly when there is one in the old. -/
theorem is_folder_moved (hfolders : FolderNames folders) (h : path.Moved folders path')
    (hstays : tree.Stays path) (hlength : path'.text.utf8ByteSize ≤ pathLimit) (hpath : path.text ≠ "") :
    (tree.movedBelow folders).isFolder path' = tree.isFolder path := by
  unfold isFolder
  rw [resolve_moved hfolders h hstays hlength hpath]
  cases tree.resolve path with
  | error fault => rfl
  | ok found =>
      obtain ⟨place, node⟩ := found
      cases node <;> rfl

/-- Names that lead from one location to another lead from the one to the other below folders. -/
theorem below_below (folders top names : List String) :
    below? (folders ++ top) (folders ++ names) = below? top names := by
  have hprefix : (folders ++ top).isPrefixOf (folders ++ names) = top.isPrefixOf names := by
    rw [Bool.eq_iff_iff, List.isPrefixOf_iff_prefix, List.isPrefixOf_iff_prefix,
      List.prefix_append_right_inj]
  have hdrop : (folders ++ names).drop (folders.length + top.length) = names.drop top.length := by
    rw [← List.drop_drop, List.drop_left]
  simp only [below?, hprefix, List.length_append, hdrop, Nat.add_lt_add_iff_left]

/-- The same files stand below a folder of the tree when it is moved. -/
theorem files_below_moved (hfolders : FolderNames folders) (h : path.Moved folders path')
    (hstays : tree.Stays path) (hlength : path'.text.utf8ByteSize ≤ pathLimit) (hpath : path.text ≠ "") :
    (tree.movedBelow folders).filesBelow path' = tree.filesBelow path := by
  unfold filesBelow
  rw [resolve_moved hfolders h hstays hlength hpath]
  cases tree.resolve path with
  | error fault => rfl
  | ok found =>
      obtain ⟨place, node⟩ := found
      cases place with
      | outside => cases node <;> rfl
      | inside top =>
          cases node with
          | file | link => rfl
          | folder =>
              simp only [Except.map, foundBelow, Place.below, movedBelow, List.filterMap_cons,
                List.filterMap_map, Function.comp_def, below_below]

/-- The same folders stand below a folder of the tree when it is moved. -/
theorem folders_below_moved (hfolders : FolderNames folders) (h : path.Moved folders path')
    (hstays : tree.Stays path) (hlength : path'.text.utf8ByteSize ≤ pathLimit) (hpath : path.text ≠ "") :
    (tree.movedBelow folders).foldersBelow path' = tree.foldersBelow path := by
  unfold foldersBelow
  rw [resolve_moved hfolders h hstays hlength hpath]
  cases tree.resolve path with
  | error fault => rfl
  | ok found =>
      obtain ⟨place, node⟩ := found
      cases place with
      | outside => cases node <;> rfl
      | inside top =>
          cases node with
          | file | link => rfl
          | folder =>
              -- The new folders themselves are not below any folder of the tree.
              have hnew : below? (folders ++ top) folders = none := by simp [below?]
              simp only [Except.map, foundBelow, Place.below, movedBelow, List.flatMap_cons, hnew,
                List.nil_append, List.flatMap_map, below_below]

/-- Nothing is read beside the last of the new folders. -/
theorem read_beside (tree : FileTree) {above : List String} {last other : String}
    (hfolders : FolderNames (above ++ [last])) (hpieces : path.pieces = above ++ [other])
    (hname : IsFileName other) (hother : other ≠ last) :
    ((tree.movedBelow (above ++ [last])).read path).toOption = none := by
  have hrelative : path.isAbsolute = false := by
    by_contra habsolute
    obtain ⟨rest, hrest⟩ := Path.pieces_of_absolute (Bool.not_eq_false _ ▸ habsolute)
    have hempty : "" ∈ above ++ [other] := by simp [← hpieces, hrest]
    rcases List.mem_append.mp hempty with hmem | hmem
    · exact (hfolders.named "" (List.mem_append_left _ hmem)).not_empty rfl
    · exact hname.not_empty (List.mem_singleton.mp hmem).symm
  have hsilent : ¬ (other = "" ∨ other = ".") := not_or.mpr ⟨hname.not_empty, hname.not_current⟩
  have hwalk : ∀ follow, ∃ fault,
      (tree.movedBelow (above ++ [last])).walk follow (.inside []) (above ++ [other]) = .error fault := by
    intro follow
    have hsplit : above ++ [last] = [] ++ above ++ [last] := rfl
    rw [walk_folders hfolders follow hsplit]
    unfold walk
    simp only [if_neg hsilent, if_neg hname.not_parent, List.nil_append, tree.node_beside rfl hother]
    split <;> exact ⟨_, rfl⟩
  have hresolve : ∃ fault, (tree.movedBelow (above ++ [last])).resolve path = .error fault := by
    unfold resolve
    simp only [hpieces, hrelative, Bool.false_eq_true, if_false]
    split_ifs
    · exact ⟨_, rfl⟩
    · exact ⟨_, rfl⟩
    · exact ⟨_, rfl⟩
    · exact hwalk _
  obtain ⟨fault, hfault⟩ := hresolve
  rw [read, hfault]
  rfl

end FileTree

end TestMeasures
