import TestMeasures.Proofs.Aggregation

/-!
# Paths that lead straight down

A path below a folder that adds nothing but names to it has no other spelling in a tree without links: the
names it adds are those that lead on from the folder (`FileTree.components_eq_of_below`). Patterns that are
relative and do not climb stand for such paths alone (`Pattern.below_of_mem_resolve`).
-/

namespace TestMeasures

namespace Path

/-- The pieces between slashes have no slash in them. -/
theorem no_slash_of_mem_split {chars piece : List Char} (h : piece ∈ splitPieces chars) :
    '/' ∉ piece := by
  induction chars generalizing piece with
  | nil => simp_all [splitPieces]
  | cons c rest ih =>
      obtain ⟨head, more, hmore⟩ := List.exists_cons_of_ne_nil (split_pieces_ne_nil rest)
      have hhead : '/' ∉ head := ih (by simp [hmore])
      by_cases hslash : c = '/'
      · simp only [splitPieces, hslash, if_true, List.mem_cons] at h
        rcases h with rfl | h
        · exact List.not_mem_nil
        · exact ih h
      · simp only [splitPieces, hslash, if_false, hmore, List.mem_cons] at h
        rcases h with rfl | h
        · exact List.not_mem_cons_of_ne_of_not_mem (Ne.symm hslash) hhead
        · exact ih (by simp [hmore, h])

/-- No piece of a path has a slash in it. -/
theorem no_slash_of_mem_pieces {path : Path} {piece : String} (h : piece ∈ path.pieces) :
    '/' ∉ piece.toList := by
  obtain ⟨chars, hchars, rfl⟩ := List.mem_map.mp h
  simpa using no_slash_of_mem_split hchars

/-- A text without a slash is one piece. -/
theorem pieces_of_no_slash {text : String} (h : '/' ∉ text.toList) : (Path.mk text).pieces = [text] := by
  simp [pieces, split_pieces_of_no_slash h]

/-- A component other than the root and a leading `.` is that of a piece. -/
theorem mem_components_iff {path : Path} {component : Component} (hroot : component ≠ .root)
    (hcurrent : component ≠ .current) :
    component ∈ path.components ↔
      ∃ piece ∈ path.pieces, Component.ofPiece? piece = some component := by
  cases habsolute : path.isAbsolute with
  | true =>
      obtain ⟨rest, hpieces⟩ := pieces_of_absolute habsolute
      simp [components, hpieces, habsolute, hroot, Component.ofPiece?]
  | false =>
      unfold components
      split
      case h_1 hpieces => simp [hpieces]
      case h_2 first rest hpieces =>
        rw [hpieces, habsolute]
        by_cases hdot : first = "."
        · simp [hdot, hcurrent, Component.ofPiece?]
        · simp [hdot]

/-- The text of a component that is a name or a leading `.` is a single piece that does not climb. -/
theorem text_of_mem_components {path : Path} {component : Component} (h : component ∈ path.components)
    (hroot : component ≠ .root) (hparent : component ≠ .parent) :
    '/' ∉ component.text.toList ∧ component.text ≠ ".." := by
  cases component with
  | root => exact absurd rfl hroot
  | parent => exact absurd rfl hparent
  | current => exact ⟨by decide, by decide⟩
  | name text =>
      obtain ⟨piece, hmem, hpiece⟩ := (mem_components_iff (by simp) (by simp)).mp h
      unfold Component.ofPiece? at hpiece
      split at hpiece
      case isTrue => cases hpiece
      case isFalse =>
        split at hpiece
        case isTrue => cases hpiece
        case isFalse hup =>
          obtain rfl : piece = text := by simpa using hpiece
          exact ⟨no_slash_of_mem_pieces hmem, hup⟩

/-- Pieces that are put behind others add their components. -/
theorem components_append {base path : Path} {before more : List String} (behind : List String)
    (hbefore : before ≠ []) (habsolute : path.isAbsolute = base.isAbsolute)
    (hpath : path.pieces = before ++ more) (hbase : base.pieces = before ++ behind)
    (hbehind : behind.filterMap Component.ofPiece? = []) :
    path.components = base.components ++ more.filterMap Component.ofPiece? := by
  obtain ⟨first, rest, rfl⟩ := List.exists_cons_of_ne_nil hbefore
  simp [components, hpath, hbase, habsolute, hbehind]

variable {base path addition : Path} {names : List String}

/-- A relative path that is put below a folder is found from where the folder is found. -/
theorem is_absolute_join (hbase : base.text ≠ "") (hrelative : addition.isAbsolute = false) :
    (base.join addition).isAbsolute = base.isAbsolute := by
  obtain ⟨c, chars, hchars⟩ := List.exists_cons_of_ne_nil (String.toList_eq_nil_iff.not.mpr hbase)
  unfold join
  rw [if_neg (by simp [hrelative])]
  split <;> simp [isAbsolute, hchars]

/-- A relative path that is put below a folder adds the components of its pieces. -/
theorem components_join (hbase : base.text ≠ "") (hrelative : addition.isAbsolute = false) :
    (base.join addition).components =
      base.components ++ addition.pieces.filterMap Component.ofPiece? := by
  have habsolute := is_absolute_join hbase hrelative
  have hpieces : ∀ chars, (splitPieces chars).map String.ofList ≠ [] := by
    simp [split_pieces_ne_nil]
  unfold join at habsolute ⊢
  rw [if_neg (by simp [hrelative])] at habsolute ⊢
  split
  case isTrue hend =>
    -- The slash at the end of the folder leaves an empty piece, which the addition takes the place of.
    obtain ⟨before, hbefore⟩ := List.getLast?_eq_some_iff.mp (hend.resolve_left hbase)
    rw [if_pos hend] at habsolute
    refine components_append [""] (hpieces before) habsolute ?_ ?_ rfl
    · simp [pieces, hbefore, split_pieces_append]
    · simp [pieces, hbefore, split_pieces_append, splitPieces]
  case isFalse hend =>
    rw [if_neg hend] at habsolute
    refine components_append [] (hpieces base.text.toList) habsolute ?_ ?_ rfl
    · simp [pieces, split_pieces_append]
    · simp [pieces]

/-- Pieces that do not climb have the names among them for components. -/
theorem components_of_pieces {pieces : List String} (h : ".." ∉ pieces) :
    pieces.filterMap Component.ofPiece? = (steps pieces).map .name := by
  induction pieces with
  | nil => rfl
  | cons piece rest ih =>
      obtain ⟨hpiece, hrest⟩ := not_or.mp (List.mem_cons.not.mp h)
      rw [List.filterMap_cons, ih hrest]
      cases hsilent : silent piece with
      | true =>
          have hnone : piece = "" ∨ piece = "." := by simpa [silent] using hsilent
          simp [Component.ofPiece?, hnone, steps, hsilent]
      | false =>
          have hsome : ¬ (piece = "" ∨ piece = ".") := by simpa [silent] using hsilent
          simp [Component.ofPiece?, hsome, Ne.symm hpiece, steps, hsilent]

/-- A path adds nothing but names to a folder. -/
structure Below (base : Path) (names : List String) (path : Path) : Prop where
  no_climb : ∀ name ∈ names, silent name = false ∧ name ≠ ".."
  components_eq : path.components = base.components ++ names.map .name
  absolute_eq : path.isAbsolute = base.isAbsolute
  not_empty : path.text ≠ ""

/-- No names lead from a path to the path itself. -/
theorem below_self (h : base.text ≠ "") : Below base [] base where
  no_climb := by simp
  components_eq := by simp
  absolute_eq := rfl
  not_empty := h

/-- A relative path that does not climb leads further down. -/
theorem Below.join (h : Below base names path) (hrelative : addition.isAbsolute = false)
    (hclimb : ".." ∉ addition.pieces) :
    Below base (names ++ steps addition.pieces) (path.join addition) where
  no_climb name hname := by
    rcases List.mem_append.mp hname with hname | hname
    · exact h.no_climb name hname
    · obtain ⟨hpiece, hsilent⟩ := List.mem_filter.mp hname
      exact ⟨by simpa using hsilent, fun hup => hclimb (hup ▸ hpiece)⟩
  components_eq := by
    rw [components_join h.not_empty hrelative, components_of_pieces hclimb, h.components_eq,
      List.map_append, List.append_assoc]
  absolute_eq := (is_absolute_join h.not_empty hrelative).trans h.absolute_eq
  not_empty := by
    unfold Path.join
    rw [if_neg (by simp [hrelative])]
    split <;> simp [h.not_empty]

/-- Single pieces that do not climb lead further down, one after the other. -/
theorem Below.join_all {texts : List String} (h : Below base names path)
    (htexts : ∀ text ∈ texts, '/' ∉ text.toList ∧ text ≠ "..") :
    ∃ more, Below base more (texts.foldl (fun path text => path.join ⟨text⟩) path) := by
  induction texts generalizing path names with
  | nil => exact ⟨names, h⟩
  | cons text rest ih =>
      obtain ⟨hslash, hup⟩ := htexts text List.mem_cons_self
      have hclimb : ".." ∉ (Path.mk text).pieces := by
        rw [pieces_of_no_slash hslash]
        simpa using Ne.symm hup
      exact ih (h.join (relative_of_no_slash hslash) hclimb) fun other hother =>
        htexts other (List.mem_cons_of_mem _ hother)

end Path

namespace Pattern

/-- A pattern is relative and does not climb. -/
def Descends (pattern : String) : Prop :=
  ∀ component ∈ (Path.mk pattern).components, component ≠ .root ∧ component ≠ .parent

instance (pattern : String) : Decidable (Descends pattern) :=
  inferInstanceAs (Decidable (∀ component ∈ _, _))

/-- A pattern that does not climb stands for paths below the folder that patterns start from. -/
theorem below_of_mem_resolve {tree : FileTree} {base : Path} (hnames : tree.Named)
    (hbase : base.text ≠ "") {pattern : String} (hpattern : Descends pattern) {paths : List Path}
    {path : Path} (h : resolve tree base pattern = .ok paths) (hpath : path ∈ paths) :
    ∃ names, Path.Below base names path := by
  rcases of_mem_resolve h hpath with ⟨rfl, -⟩ | ⟨names, hbelow, rfl⟩
  · have hrelative : (Path.mk pattern).isAbsolute = false := by
      refine Bool.eq_false_iff.mpr fun habsolute => ?_
      have hroot := (Path.is_absolute_iff _).mp habsolute
      exact (hpattern _ (List.mem_of_mem_head? hroot)).1 rfl
    have hclimb : ".." ∉ (Path.mk pattern).pieces := by
      intro hup
      have hparent : Path.Component.parent ∈ (Path.mk pattern).components :=
        (Path.mem_components_iff (by simp) (by simp)).mpr ⟨"..", hup, rfl⟩
      exact (hpattern _ hparent).2 rfl
    exact ⟨_, (Path.below_self hbase).join hrelative hclimb⟩
  · obtain ⟨-, entry, hentry, hin⟩ := mem_files_below hbelow
    have htexts : ∀ text ∈ (splitComponents ((Path.mk pattern).components.map Path.Component.text)).1,
        '/' ∉ text.toList ∧ text ≠ ".." := by
      intro text htext
      obtain ⟨component, hcomponent, rfl⟩ :=
        List.mem_map.mp ((List.takeWhile_sublist _).subset htext)
      obtain ⟨hroot, hparent⟩ := hpattern component hcomponent
      exact Path.text_of_mem_components hcomponent hroot hparent
    obtain ⟨top, hfolder⟩ := (Path.below_self hbase).join_all htexts
    refine hfolder.join_all fun name hname => ?_
    have hfile := hnames entry hentry name (hin name hname)
    exact ⟨hfile.no_slash, hfile.not_parent⟩

end Pattern

namespace FileTree

open TestMeasures.Path (steps EndsInStep silent)

variable {tree : FileTree} {follow : Place → List String → Except FileFault (Place × Node)}

/-- No symbolic link stands in the tree. -/
def Linkless (tree : FileTree) : Prop :=
  ∀ entry ∈ tree.entries, ∀ target, entry.2 ≠ .link target

/-- A tree without links has no link at any place. -/
theorem node_ne_link (h : tree.Linkless) (names : List String) (target : Path) :
    tree.node? names ≠ some (.link target) := by
  intro hnode
  unfold node? at hnode
  split at hnode
  case h_1 entry hfind => exact h entry (List.mem_of_find?_eq_some hfind) target (Option.some.inj hnode)
  case h_2 => split at hnode <;> cases hnode

/-- Without links, a piece that is not the last on the way to something, or that leads to a folder, leads to
one place, whatever comes behind it. -/
theorem exists_next_of_walk (hlinkless : tree.Linkless) {place found : Place} {piece : String}
    {rest : List String} {node : Node} (hrest : rest ≠ [] ∨ node = .folder)
    (h : tree.walk follow place (piece :: rest) = .ok (found, node)) :
    ∃ next, ∀ others, tree.walk follow place (piece :: others) = tree.walk follow next others := by
  by_cases hsilent : piece = "" ∨ piece = "."
  · exact ⟨place, fun others => by simp only [walk, if_pos hsilent]⟩
  by_cases hup : piece = ".."
  · cases place with
    | outside => exact ⟨.outside, fun others => by simp only [walk, if_neg hsilent, if_pos hup]⟩
    | inside names =>
        cases names with
        | nil => exact ⟨.outside, fun others => by simp only [walk, if_neg hsilent, if_pos hup]⟩
        | cons name names =>
            exact ⟨.inside (name :: names).dropLast, fun others => by
              simp only [walk, if_neg hsilent, if_pos hup]⟩
  · simp only [walk, if_neg hsilent, if_neg hup] at h ⊢
    cases place with
    | outside => cases h
    | inside names =>
        by_cases hlong : piece.utf8ByteSize > 255
        · simp only [if_pos hlong] at h
          cases h
        · simp only [if_neg hlong] at h ⊢
          cases hnode : tree.node? (names ++ [piece]) with
          | none => simp [hnode] at h
          | some node =>
              cases node with
              | folder => exact ⟨.inside (names ++ [piece]), fun others => rfl⟩
              | file bytes =>
                  simp only [hnode] at h
                  split at h
                  case isTrue hempty =>
                    rcases hrest with hrest | rfl
                    · exact absurd (List.isEmpty_iff.mp hempty) hrest
                    · cases h
                  case isFalse => cases h
              | link target => exact absurd hnode (node_ne_link hlinkless _ _)

/-- Without links, the way to a file goes through the place that its first pieces lead to. -/
theorem walk_append (hlinkless : tree.Linkless) {place found : Place} {before more : List String}
    {bytes : List UInt8} (hmore : more ≠ [])
    (h : tree.walk follow place (before ++ more) = .ok (found, .file bytes)) :
    ∃ top, tree.walk follow place before = .ok (top, .folder) ∧
      tree.walk follow top more = .ok (found, .file bytes) := by
  induction before generalizing place with
  | nil => exact ⟨place, rfl, h⟩
  | cons piece rest ih =>
      obtain ⟨next, hnext⟩ := exists_next_of_walk hlinkless (.inl (by simp [hmore])) h
      rw [hnext]
      exact ih ((hnext _).symm.trans h)

/-- Without links, the way on from a folder does not depend on the way to it. -/
theorem walk_behind_folder (hlinkless : tree.Linkless) {place next : Place} {before : List String}
    (h : tree.walk follow place before = .ok (next, .folder)) (more : List String) :
    tree.walk follow place (before ++ more) = tree.walk follow next more := by
  induction before generalizing place with
  | nil =>
      obtain ⟨rfl, -⟩ := Prod.mk.inj (Except.ok.inj h)
      rfl
  | cons piece rest ih =>
      obtain ⟨mid, hmid⟩ := exists_next_of_walk hlinkless (.inr rfl) h
      rw [List.cons_append, hmid]
      exact ih ((hmid _).symm.trans h)

/-- Without links, names lead to what stands under them from there. -/
theorem walk_inside (hlinkless : tree.Linkless) {above : List String} {found : Place} {names : List String}
    {node : Node} (hnames : ∀ name ∈ names, silent name = false ∧ name ≠ "..")
    (h : tree.walk follow (.inside above) names = .ok (found, node)) : found = .inside (above ++ names) := by
  induction names generalizing above with
  | nil =>
      obtain ⟨rfl, -⟩ := Prod.mk.inj (Except.ok.inj h)
      rw [List.append_nil]
  | cons name rest ih =>
      obtain ⟨hname, hothers⟩ := List.forall_mem_cons.mp hnames
      have hpiece : ¬ (name = "" ∨ name = ".") := by simpa [silent] using hname.1
      unfold walk at h
      rw [if_neg hpiece, if_neg hname.2] at h
      simp only at h
      split at h
      case isTrue => cases h
      case isFalse =>
        split at h
        case h_1 => cases h
        case h_2 =>
          rw [ih hothers h, List.append_assoc, List.singleton_append]
        case h_3 =>
          split at h
          case isFalse => cases h
          case isTrue hempty =>
            obtain ⟨rfl, -⟩ := Prod.mk.inj (Except.ok.inj h)
            rw [List.isEmpty_iff.mp hempty]
        case h_4 target hnode => exact absurd hnode (node_ne_link hlinkless _ _)

/-- Without links, names lead to something only from within the tree. -/
theorem walk_names (hlinkless : tree.Linkless) {top found : Place} {names : List String} {node : Node}
    (hnames : ∀ name ∈ names, silent name = false ∧ name ≠ "..") (hsome : names ≠ [])
    (h : tree.walk follow top names = .ok (found, node)) :
    ∃ above, top = .inside above ∧ found = .inside (above ++ names) := by
  cases top with
  | inside above => exact ⟨above, rfl, walk_inside hlinkless hnames h⟩
  | outside =>
      obtain ⟨name, rest, rfl⟩ := List.exists_cons_of_ne_nil hsome
      obtain ⟨hsilent, hup⟩ := hnames name List.mem_cons_self
      have hpiece : ¬ (name = "" ∨ name = ".") := by simpa [silent] using hsilent
      rw [walk, if_neg hpiece, if_neg hup] at h
      cases h

/-- Without links, a path below a folder leads to the file under the names that it adds to the place of the
folder, or to what the folder is if it adds none. -/
theorem resolve_of_below (hlinkless : tree.Linkless) {base path : Path} {names file : List String}
    {bytes : List UInt8} (h : Path.Below base names path)
    (hpath : tree.resolve path = .ok (.inside file, .file bytes)) :
    let start := tree.resolveFrom linkLimit (if base.isAbsolute then .outside else .inside [])
      (base.components.filterMap Path.Component.step?)
    names = [] ∧ start = .ok (.inside file, .file bytes) ∨
      ∃ top, start = .ok (.inside top, .folder) ∧ file = top ++ names := by
  have hfile : tree.isFile path = true := by rw [isFile, hpath]
  have hends : EndsInStep path.pieces := ends_in_step_of_is_file hfile
  have hsteps : steps path.pieces = base.components.filterMap Path.Component.step? ++ names := by
    have hnames : (names.map Path.Component.name).filterMap Path.Component.step? = names := by
      rw [List.filterMap_map]
      exact List.filterMap_some
    rw [Path.steps_pieces, h.components_eq, List.filterMap_append, hnames]
  have hwalk := walk_of_resolve hpath
  have hlimit : tree.resolveFrom linkLimit = tree.walk (tree.resolveFrom 39) := rfl
  rw [hlimit] at hwalk ⊢
  rw [walk_steps tree (resolve_from_skips tree 39) (.inr hends), hsteps, h.absolute_eq] at hwalk
  by_cases hnames : names = []
  · rw [hnames, List.append_nil] at hwalk
    exact .inl ⟨hnames, hwalk⟩
  · obtain ⟨top, hstart, hrest⟩ := walk_append hlinkless hnames hwalk
    obtain ⟨above, rfl, habove⟩ := walk_names hlinkless h.no_climb hnames hrest
    exact .inr ⟨above, hstart, Place.inside.inj habove⟩

/-- Without links, paths below one folder that lead to the same file have the same components. -/
theorem components_eq_of_below (hlinkless : tree.Linkless) {base path other : Path}
    {names names' file : List String} {bytes bytes' : List UInt8} (h : Path.Below base names path)
    (h' : Path.Below base names' other) (hpath : tree.resolve path = .ok (.inside file, .file bytes))
    (hother : tree.resolve other = .ok (.inside file, .file bytes')) :
    path.components = other.components := by
  -- The folder leads to a file, to which neither path adds a name, or to a place, to which both add the same.
  have hnames : names = names' := by
    rcases resolve_of_below hlinkless h hpath with ⟨rfl, hstart⟩ | ⟨top, hstart, hfile⟩ <;>
      rcases resolve_of_below hlinkless h' hother with ⟨rfl, hstart'⟩ | ⟨top', hstart', hfile'⟩
    · rfl
    · cases hstart.symm.trans hstart'
    · cases hstart.symm.trans hstart'
    · cases hstart.symm.trans hstart'
      exact List.append_cancel_left (hfile.symm.trans hfile')
  rw [h.components_eq, h'.components_eq, hnames]

end FileTree

end TestMeasures
