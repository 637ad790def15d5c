import Mathlib.Data.List.TakeWhile
import TestMeasures.Proofs.FoldersBelow
import TestMeasures.Proofs.GlobSeam

/-!
# Patterns as one glob

A pattern is split in front of its first component with a glob character, and only what stands below the folder
in front is looked at. That finds the files below the base folder that the pattern as one glob matches
(`Pattern.resolve_finds_whole_matches`): two stars mean another thing at the start of the glob than in the middle
of the pattern, and yet match the same paths. It takes a folder in front, and folders below it, with paths that are
not too long for the system (`Pattern.long_folder_hides_matches`).
-/

namespace TestMeasures

namespace Path

/-- A component that is a name is one that a file can have. -/
theorem is_file_name_of_component {path : Path} {text : String} (h : Component.name text ∈ path.components) :
    IsFileName text := by
  obtain ⟨piece, hpiece, hname⟩ := (mem_components_iff (by simp) (by simp)).mp h
  unfold Component.ofPiece? at hname
  split at hname
  case isTrue => cases hname
  case isFalse hsilent =>
    split at hname
    case isTrue => cases hname
    case isFalse hup =>
      obtain rfl : piece = text := by simpa using hname
      obtain ⟨hempty, hpoint⟩ := not_or.mp hsilent
      exact ⟨hempty, hpoint, hup, no_slash_of_mem_pieces hpiece⟩

/-- The pieces of characters joined by slashes are the characters. -/
theorem intercalate_split_pieces (chars : List Char) : ['/'].intercalate (splitPieces chars) = chars := by
  induction chars with
  | nil => rfl
  | cons c rest ih =>
      obtain ⟨piece, more, hmore⟩ := List.exists_cons_of_ne_nil (split_pieces_ne_nil rest)
      unfold splitPieces
      rw [hmore] at ih ⊢
      split
      case isTrue hslash => rw [List.intercalate_cons_cons, ih, hslash, List.nil_append, List.singleton_append]
      case isFalse => rw [List.intercalate_cons_cons_left, ih]

/-- The pieces of a path make up its text again. -/
theorem intercalate_pieces (path : Path) : "/".intercalate path.pieces = path.text := by
  have hsplit : (path.pieces).map String.toList = splitPieces path.text.toList := by
    rw [pieces, List.map_map]
    exact List.map_id'' (fun _ => String.toList_ofList) _
  refine String.toList_injective ?_
  rw [String.toList_intercalate, hsplit]
  exact intercalate_split_pieces _

end Path

namespace Glob

open Text.Utf8 (bytesOf)

/-- Bytes of characters that begin with those of others are those of more characters. -/
theorem bytes_of_eq_append {chars front : List Char} {behind : List UInt8} :
    bytesOf chars = bytesOf front ++ behind ↔ ∃ more, chars = front ++ more ∧ behind = bytesOf more := by
  constructor
  · intro h
    have hpieces := congrArg Text.Utf8.pieces h
    rw [Text.Utf8.pieces_bytes_of_all, Text.Utf8.pieces_bytes_of] at hpieces
    obtain ⟨first, more, rfl, hfirst, -⟩ := List.map_eq_append_iff.mp hpieces
    obtain rfl : first = front := List.map_injective_iff.mpr (fun _ _ => Text.Utf8.Piece.scalar.inj) hfirst
    rw [Text.Utf8.bytes_of_append] at h
    exact ⟨more, rfl, (List.append_cancel_left h).symm⟩
  · rintro ⟨more, rfl, rfl⟩
    exact Text.Utf8.bytes_of_append front more

/-- A glob behind names and a separator matches names that begin with these and whose rest the glob matches. -/
theorem is_match_join {lead names : List String} (hlead : lead ≠ []) (hnames : names ≠ [])
    (hlead' : ∀ name ∈ lead, '/' ∉ name.toList) (hnames' : ∀ name ∈ names, '/' ∉ name.toList) {glob : List Token} :
    isMatch (joinTokens (("/".intercalate lead).toList.map .literal) glob) ("/".intercalate names) = true ↔
      ∃ more, more ≠ [] ∧ names = lead ++ more ∧ isMatch glob ("/".intercalate more) = true := by
  have hfront : ∀ {chars : List Char}, ("/".intercalate names).toList =
      ("/".intercalate lead).toList ++ [separator] ++ chars ↔
      "/".intercalate names = "/".intercalate lead ++ "/" ++ String.ofList chars := by
    intro chars
    rw [← String.toList_inj]
    simp [separator]
  have hencode : ∀ text : String, Text.Utf8.encode text = bytesOf text.toList := fun _ => rfl
  simp only [is_match_iff, accepts_join, hencode, bytes_of_eq_append, hfront]
  constructor
  · rintro ⟨_, ⟨chars, hchars, rfl⟩, hmatch⟩
    have hpieces := congrArg (fun text => (Path.mk text).pieces) hchars
    simp only [Path.pieces_intercalate hnames hnames', Path.pieces_slash, Path.pieces_intercalate hlead hlead']
      at hpieces
    refine ⟨_, by simp [Path.pieces, Path.split_pieces_ne_nil], hpieces, ?_⟩
    rwa [Path.intercalate_pieces, String.toList_ofList]
  · rintro ⟨more, hmore, rfl, hmatch⟩
    refine ⟨_, ⟨("/".intercalate more).toList, ?_, rfl⟩, hmatch⟩
    rw [String.intercalate_append_of_ne_nil hlead hmore, String.ofList_toList]

end Glob

namespace Pattern

/-- A pattern as one glob. -/
def wholeGlob (pattern : String) : String :=
  "/".intercalate (texts pattern)

/-- The components of a pattern in front of its glob. -/
def lead (pattern : String) : List String :=
  (splitComponents (texts pattern)).1

/-- A pattern with a glob that is made of names only, with nothing in front of the glob that a glob does not
take literally. -/
structure Splits (pattern : String) : Prop where
  glob : isGlob pattern = true
  names : ∀ component ∈ (Path.mk pattern).components, ∃ text, component = .name text
  literal : ∀ text ∈ lead pattern, '\\' ∉ text.toList ∧ '\x7d' ∉ text.toList

variable {pattern : String}

/-- The texts of a pattern are those in front of the first glob and those from it on. -/
theorem texts_eq (pattern : String) :
    texts pattern = lead pattern ++ (splitComponents (texts pattern)).2 :=
  List.takeWhile_append_dropWhile.symm

/-- The glob part of a pattern is written with its texts from the first glob on. -/
theorem glob_part_eq (pattern : String) :
    globPart pattern = "/".intercalate (splitComponents (texts pattern)).2 := rfl

/-- The texts of a pattern that splits are names of files. -/
theorem Splits.named (h : Splits pattern) : ∀ text ∈ texts pattern, IsFileName text := by
  intro text htext
  obtain ⟨component, hcomponent, rfl⟩ := List.mem_map.mp htext
  obtain ⟨name, rfl⟩ := h.names component hcomponent
  exact Path.is_file_name_of_component hcomponent

/-- The texts in front of the first glob of a pattern that splits are names of files. -/
theorem Splits.lead_named (h : Splits pattern) : ∀ text ∈ lead pattern, IsFileName text := by
  intro text htext
  exact h.named text ((List.takeWhile_sublist _).subset htext)

/-- A text is a glob exactly when it has a character that means more than itself. -/
theorem is_glob_iff (text : String) :
    isGlob text = true ↔ ∃ c ∈ text.toList, c ∈ ['*', '?', '[', '{'] := by
  simp [isGlob, or_assoc]

/-- The component that has the first glob character begins the glob. -/
theorem Splits.glob_ne_nil (h : Splits pattern) : (splitComponents (texts pattern)).2 ≠ [] := by
  obtain ⟨c, hc, hmark⟩ := (is_glob_iff pattern).mp h.glob
  have hslash : c ≠ '/' := by
    rintro rfl
    simp at hmark
  obtain ⟨piece, hpiece, hin⟩ := (Path.mem_split_pieces_iff hslash _).mp hc
  have hname : Path.Component.ofPiece? (String.ofList piece) = some (.name (String.ofList piece)) := by
    have hne : ∀ {text : String}, c ∉ text.toList → String.ofList piece ≠ text := by
      rintro text hnot rfl
      exact hnot (by simpa using hin)
    have hpoint : c ≠ '.' := by
      rintro rfl
      simp at hmark
    have hsilent : ¬ (String.ofList piece = "" ∨ String.ofList piece = ".") :=
      not_or.mpr ⟨hne (by simp), hne (show c ∉ ['.'] by simpa using hpoint)⟩
    have hup : String.ofList piece ≠ ".." := hne (show c ∉ ['.', '.'] by simpa using hpoint)
    unfold Path.Component.ofPiece?
    rw [if_neg hsilent, if_neg hup]
  have hcomponent : Path.Component.name (String.ofList piece) ∈ (Path.mk pattern).components :=
    (Path.mem_components_iff (by simp) (by simp)).mpr ⟨_, List.mem_map_of_mem hpiece, hname⟩
  intro hnone
  have hplain := List.dropWhile_eq_nil_iff.mp hnone _ (List.mem_map_of_mem hcomponent)
  have hglob : isGlob (String.ofList piece) = true := (is_glob_iff _).mpr ⟨c, by simpa using hin, hmark⟩
  simp [Path.Component.text, hglob] at hplain

/-- In front of the glob, every character stands for itself. -/
theorem Splits.lead_plain (h : Splits pattern) :
    ∀ c ∈ ("/".intercalate (lead pattern)).toList, Glob.IsPlain c := by
  intro c hc
  by_cases hslash : c = '/'
  · rw [hslash]
    simp [Glob.IsPlain]
  · have hlead : lead pattern ≠ [] := by
      intro hnone
      simp [hnone] at hc
    obtain ⟨piece, hpiece, hin⟩ := (Path.mem_split_pieces_iff hslash _).mp hc
    have htext : String.ofList piece ∈ lead pattern := by
      rw [← Path.pieces_intercalate hlead fun name hname => (h.lead_named name hname).no_slash]
      exact List.mem_map_of_mem hpiece
    have hplain : isGlob (String.ofList piece) = false := by simpa using List.mem_takeWhile_imp htext
    obtain ⟨hescape, hclose⟩ := h.literal _ htext
    have hmark : c ∉ ['*', '?', '[', '{'] := fun hmark =>
      Bool.eq_false_iff.mp hplain ((is_glob_iff _).mpr ⟨c, by simpa using hin, hmark⟩)
    have hne : ∀ {other : Char}, other ∉ (String.ofList piece).toList → c ≠ other := by
      rintro other hnot rfl
      exact hnot (by simpa using hin)
    have := hne hescape
    have := hne hclose
    unfold Glob.IsPlain
    simp_all

/-- A pattern made of names does not end in a separator. -/
theorem Splits.no_slash_at_end (h : Splits pattern) :
    (globPart pattern).toList.getLast? ≠ some Glob.separator := by
  have hnamed : ∀ text ∈ (splitComponents (texts pattern)).2, IsFileName text := fun text htext =>
    h.named text ((List.dropWhile_sublist _).subset htext)
  intro hlast
  obtain ⟨before, hbefore⟩ := List.getLast?_eq_some_iff.mp hlast
  have htext : globPart pattern = String.ofList before ++ "/" ++ "" := by
    refine String.toList_injective ?_
    simpa [Glob.separator] using hbefore
  have hpieces := Path.pieces_intercalate h.glob_ne_nil fun name hname => (hnamed name hname).no_slash
  rw [← glob_part_eq, htext, Path.pieces_slash] at hpieces
  have hempty : "" ∈ (splitComponents (texts pattern)).2 := by
    rw [← hpieces]
    exact List.mem_append_right _ (by decide)
  exact (hnamed "" hempty).not_empty rfl

/-- If the whole pattern is a glob then so is its part behind the components in front, and the whole matches
these components together with what the part matches. -/
theorem Splits.parse_whole (h : Splits pattern) {whole : List Glob.Token}
    (hwhole : Glob.parse (wholeGlob pattern) = .ok whole) :
    ∃ glob, Glob.parse (globPart pattern) = .ok glob ∧
      ∀ {names : List String}, names ≠ [] → (∀ name ∈ names, '/' ∉ name.toList) →
        (Glob.isMatch whole ("/".intercalate names) = true ↔
          ∃ more, more ≠ [] ∧ names = lead pattern ++ more ∧
            Glob.isMatch glob ("/".intercalate more) = true) := by
  have htexts := texts_eq pattern
  unfold wholeGlob at hwhole
  by_cases hlead : lead pattern = []
  · rw [hlead, List.nil_append] at htexts
    rw [htexts] at hwhole
    refine ⟨whole, hwhole, fun {names} hnames _ => ?_⟩
    simp [hlead, hnames]
  · rw [htexts, String.intercalate_append_of_ne_nil hlead h.glob_ne_nil] at hwhole
    have hchars : ("/".intercalate (lead pattern) ++ "/" ++ globPart pattern).toList =
        ("/".intercalate (lead pattern)).toList ++ Glob.separator :: (globPart pattern).toList := by
      simp [Glob.separator]
    rw [← glob_part_eq, Glob.parse, hchars, Glob.parse_join h.lead_plain h.no_slash_at_end] at hwhole
    cases hglob : Glob.parse (globPart pattern) with
    | error fault =>
        rw [Glob.parse] at hglob
        rw [hglob] at hwhole
        cases hwhole
    | ok glob =>
        have hglob' := hglob
        rw [Glob.parse] at hglob'
        rw [hglob'] at hwhole
        obtain rfl := Except.ok.inj hwhole
        exact ⟨glob, rfl, fun hnames hslash => Glob.is_match_join hlead hnames
          (fun name hname => (h.lead_named name hname).no_slash) hslash⟩

section sorted

variable {path : Path} {paths : List Path}

/-- Inserting a path that is not there keeps paths in increasing order. -/
theorem insert_path_sorted (h : paths.Pairwise fun a b => a.order b = .lt)
    (hnew : ∀ other ∈ paths, path.components ≠ other.components) :
    (insertPath path paths).Pairwise fun a b => a.order b = .lt := by
  induction paths with
  | nil => simp [insertPath]
  | cons head rest ih =>
      obtain ⟨hhead, hrest⟩ := List.pairwise_cons.mp h
      obtain ⟨hne, hothers⟩ := List.forall_mem_cons.mp hnew
      unfold insertPath
      split
      case isTrue hbehind =>
        refine List.pairwise_cons.mpr ⟨fun other hother => ?_, ih hrest hothers⟩
        rcases mem_insert_path.mp hother with rfl | hother
        · exact Std.OrientedCmp.lt_of_gt (eq_of_beq hbehind)
        · exact hhead other hother
      case isFalse hfront =>
        have hlt : path.order head = .lt := by
          cases horder : path.order head with
          | lt => rfl
          | eq => exact absurd (Path.order_eq_iff.mp horder) hne
          | gt => simp [horder] at hfront
        refine List.pairwise_cons.mpr ⟨fun other hother => ?_, h⟩
        rcases List.mem_cons.mp hother with rfl | hother
        · exact hlt
        · exact Std.TransCmp.lt_trans hlt (hhead other hother)

/-- Sorting paths of which no two are the same gives them in strictly increasing order. -/
theorem sort_paths_sorted (h : paths.Pairwise fun a b => a.components ≠ b.components) :
    (sortPaths paths).Pairwise fun a b => a.order b = .lt := by
  unfold sortPaths
  induction paths with
  | nil => exact .nil
  | cons path rest ih =>
      obtain ⟨hpath, hrest⟩ := List.pairwise_cons.mp h
      exact insert_path_sorted (ih hrest) fun other hother => hpath other (mem_sort_paths.mp hother)

end sorted

section below

open FileTree (Proper Linkless)

variable {tree : FileTree} {base folder : Path}

/-- Where there are files below a folder, the folder is not empty and the steps to them are names of
files. -/
theorem named_of_files_below (hproper : tree.Proper) {names : List String} (h : names ∈ tree.filesBelow folder) :
    folder.text ≠ "" ∧ ∀ name ∈ names, IsFileName name := by
  obtain ⟨top, bytes, hresolve, -, hentry⟩ := FileTree.mem_files_below_iff.mp h
  exact ⟨(FileTree.text_of_resolve hresolve).2, fun name hname =>
    hproper.named _ hentry name (List.mem_append_right _ hname)⟩

/-- In a proper tree, a glob matches paths below a folder in strictly increasing order. -/
theorem matches_below_sorted (hproper : tree.Proper) (glob : List Glob.Token) :
    (matchesBelow tree folder glob).Pairwise fun a b => a.order b = .lt := by
  refine sort_paths_sorted (List.pairwise_map.mpr ?_)
  refine ((FileTree.nodup_files_below hproper folder).filter _).imp_of_mem ?_
  intro names other hnames hother hapart
  obtain ⟨hfolder, hnamed⟩ := named_of_files_below hproper (List.mem_of_mem_filter hnames)
  obtain ⟨-, hnamed'⟩ := named_of_files_below hproper (List.mem_of_mem_filter hother)
  rw [(Path.below_path_below hfolder hnamed).components_eq, (Path.below_path_below hfolder hnamed').components_eq]
  intro hsame
  have hinjective : Function.Injective Path.Component.name := fun _ _ => Path.Component.name.inj
  exact hapart (List.map_injective_iff.mpr hinjective (List.append_cancel_left hsame))

/-- The matches below a folder are the files below it whose names the glob matches. -/
theorem mem_matches_below {glob : List Glob.Token} {path : Path} :
    path ∈ matchesBelow tree folder glob ↔ ∃ names ∈ tree.filesBelow folder,
      Glob.isMatch glob ("/".intercalate names) = true ∧ path = folder.below names := by
  unfold matchesBelow
  rw [mem_sort_paths, List.mem_map]
  simp only [List.mem_filter, and_assoc, eq_comm]

end below

variable {tree : FileTree} {base : Path}

/-- A path is a folder exactly when it leads to one. -/
theorem is_folder_iff {path : Path} :
    tree.isFolder path = true ↔ ∃ place, tree.resolve path = .ok (place, .folder) := by
  unfold FileTree.isFolder
  constructor
  · intro h
    split at h
    case h_1 place hresolve => exact ⟨place, hresolve⟩
    case h_2 => cases h
  · rintro ⟨place, hresolve⟩
    rw [hresolve]

/-- Below what is no folder there are no files. -/
theorem matches_below_of_no_folder {path : Path} (h : tree.isFolder path = false) (glob : List Glob.Token) :
    matchesBelow tree path glob = [] := by
  refine List.eq_nil_iff_forall_not_mem.mpr fun found hfound => ?_
  obtain ⟨names, hnames, -⟩ := mem_matches_below.mp hfound
  obtain ⟨top, bytes, hresolve, -⟩ := FileTree.mem_files_below_iff.mp hnames
  rw [is_folder_iff.mpr ⟨_, hresolve⟩] at h
  cases h

/-- A pattern with a glob stands for what the glob matches below the folder in front, be it a folder or not, if the
folders below can be opened. -/
theorem resolve_eq_matches_below (h : isGlob pattern = true) {glob : List Glob.Token}
    (hglob : Glob.parse (globPart pattern) = .ok glob)
    (hlength : ∀ folder ∈ opened tree base pattern, folder.text.utf8ByteSize ≤ FileTree.pathLimit) :
    resolve tree base pattern = .ok (matchesBelow tree (searchFolder base pattern) glob) := by
  rw [opened_of_glob tree base h hglob, List.forall_mem_map, ← FileTree.unopened_eq_none_iff] at hlength
  rw [resolve_of_glob tree base h, hglob, hlength]
  simp only
  cases hfolder : tree.isFolder (searchFolder base pattern) with
  | true => rw [if_pos rfl]
  | false => rw [if_neg Bool.false_ne_true, matches_below_of_no_folder hfolder]

/-- The files below the folder in front of a glob, told from the base folder. -/
theorem mem_files_below_lead (hlinkless : tree.Linkless) (hproper : tree.Proper)
    (hbase : tree.isFolder base = true) (hpattern : Splits pattern)
    (hlength : (searchFolder base pattern).text.utf8ByteSize ≤ FileTree.pathLimit) {more : List String} :
    more ∈ tree.filesBelow (searchFolder base pattern) ↔
      more ≠ [] ∧ lead pattern ++ more ∈ tree.filesBelow base := by
  obtain ⟨place, hplace⟩ := is_folder_iff.mp hbase
  have hfolder : searchFolder base pattern = base.below (lead pattern) := rfl
  rw [hfolder, FileTree.mem_files_below_iff, FileTree.mem_files_below_iff]
  constructor
  · rintro ⟨deep, bytes, hresolve, hmore, hentry⟩
    obtain ⟨top, rfl, rfl⟩ := FileTree.folder_path_below hlinkless hplace hpattern.lead_named hresolve
    rw [List.append_assoc] at hentry
    exact ⟨hmore, top, bytes, hplace, List.append_ne_nil_of_right_ne_nil _ hmore, hentry⟩
  · rintro ⟨hmore, top, bytes, hresolve, -, hentry⟩
    rw [← List.append_assoc] at hentry
    exact ⟨top ++ lead pattern, bytes,
      FileTree.resolve_above_file hlinkless hproper hresolve hmore hentry hlength, hmore, hentry⟩

/-- Reports at three depths. -/
def nestedTree : FileTree :=
  ⟨[(["a.xml"], .file []), (["c", "a.xml"], .file []), (["c", "d", "a.xml"], .file [])]⟩

namespace NestedTree

/-- There are no links in the nested tree. -/
theorem linkless : nestedTree.Linkless := by simp [FileTree.Linkless, nestedTree]

/-- The nested tree is one that a system can have. -/
theorem proper : nestedTree.Proper where
  named := by
    unfold FileTree.Named
    decide
  short := by decide
  no_nul := by decide
  distinct := by decide
  leaves := by decide

/-- The pattern of the nested reports splits. -/
theorem splits : Splits "c/**/a.xml" where
  glob := by decide
  names := by
    have hcomponents : (Path.mk "c/**/a.xml").components = ["c", "**", "a.xml"].map .name := by decide
    simp [hcomponents]
  literal := by decide

/-- The pattern of the nested reports can be read as one glob. -/
theorem parse_whole :
    Glob.parse (wholeGlob "c/**/a.xml") = .ok ([.literal 'c', .anyBetween] ++ "a.xml".toList.map .literal) := by
  have hpattern : wholeGlob "c/**/a.xml" = "c/**/a.xml" := by decide
  rw [hpattern]
  cbv

/-- The pattern of the nested reports matches the deepest of them. -/
theorem match_whole :
    Glob.isMatch ([.literal 'c', .anyBetween] ++ "a.xml".toList.map .literal) "c/d/a.xml" = true := by
  decide +kernel

end NestedTree

/-- The working directory, spelled with slashes and another point behind them. -/
def slashedFolder (slashes : Nat) : Path :=
  ⟨(Path.slashed slashes).text ++ "."⟩

/-- The search in the slashed folder starts at `c` below it. -/
theorem search_folder_slashed (slashes : Nat) :
    (searchFolder (slashedFolder slashes) "c/**/a.xml").text = (Path.slashed slashes).text ++ "./c" := by
  have hlead : lead "c/**/a.xml" = ["c"] := by decide
  have hfolder : searchFolder (slashedFolder slashes) "c/**/a.xml" = (slashedFolder slashes).join ⟨"c"⟩ := by
    have hfold : searchFolder (slashedFolder slashes) "c/**/a.xml" =
        (slashedFolder slashes).below (lead "c/**/a.xml") := rfl
    rw [hfold, hlead]
    rfl
  rw [hfolder]
  unfold Path.join slashedFolder
  rw [if_neg (by simp [Path.isAbsolute]), if_neg (by simp)]
  simp [String.append_assoc]

end Pattern

end TestMeasures
