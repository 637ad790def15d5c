import TestMeasures.FileTree
import TestMeasures.Proofs.PathOrder

/-!
# Spellings of one path

Empty pieces and `.` say nothing about where a path leads, as long as they do not stand at its end.
`FileTree.resolve_eq_of_same` says that two such spellings of the same components, both short enough for
the system, lead to the same place. The spellings that a path has to be of for this are the ones that lead
to a file (`FileTree.ends_in_step_of_is_file`) and the ones that end in the name of a file
(`Path.ends_in_step_join`).
-/

namespace TestMeasures

/-- A name that a file or folder can have. -/
structure IsFileName (name : String) : Prop where
  not_empty : name ≠ ""
  not_current : name ≠ "."
  not_parent : name ≠ ".."
  no_slash : '/' ∉ name.toList

instance (name : String) : Decidable (IsFileName name) :=
  decidable_of_iff (name ≠ "" ∧ name ≠ "." ∧ name ≠ ".." ∧ '/' ∉ name.toList)
    ⟨fun ⟨empty, current, parent, slash⟩ => ⟨empty, current, parent, slash⟩,
      fun ⟨empty, current, parent, slash⟩ => ⟨empty, current, parent, slash⟩⟩

namespace Path

/-- The piece that a component was made from, if it says where to go from a folder. -/
def Component.step? : Component → Option String
  | .root => none
  | .current => none
  | .parent => some ".."
  | .name text => some text

/-- The pieces of a path that say something. -/
def steps (pieces : List String) : List String :=
  pieces.filter (!silent ·)

/-- The last piece of a path says something. -/
def EndsInStep (pieces : List String) : Prop :=
  ∃ before last, pieces = before ++ [last] ∧ silent last = false

/-- A piece stands for a step unless it is silent. -/
theorem step_of_piece (piece : String) :
    (Component.ofPiece? piece).bind Component.step? = if silent piece then none else some piece := by
  by_cases hempty : piece = ""
  · simp [Component.ofPiece?, silent, hempty]
  · by_cases hdot : piece = "."
    · simp [Component.ofPiece?, silent, hdot]
    · by_cases hup : piece = ".." <;>
        simp [Component.ofPiece?, silent, hempty, hdot, hup, Component.step?]

/-- The steps of the components of pieces are those of the pieces. -/
theorem steps_of_components (pieces : List String) :
    (pieces.filterMap Component.ofPiece?).filterMap Component.step? = steps pieces := by
  rw [List.filterMap_filterMap, steps, ← List.filterMap_eq_filter]
  refine List.filterMap_congr fun piece _ => ?_
  rw [step_of_piece]
  cases hsilent : silent piece <;> simp [Option.guard, hsilent]

/-- The text of an absolute path begins with an empty piece. -/
theorem pieces_of_absolute {path : Path} (h : path.isAbsolute = true) :
    ∃ rest, path.pieces = "" :: rest := by
  unfold isAbsolute at h
  unfold pieces
  cases hchars : path.text.toList with
  | nil => simp [hchars] at h
  | cons c chars =>
      obtain rfl : c = '/' := by simpa [hchars] using h
      exact ⟨(splitPieces chars).map String.ofList, by simp [splitPieces]⟩

/-- Splitting leaves at least one piece. -/
theorem split_pieces_ne_nil (chars : List Char) : splitPieces chars ≠ [] := by
  cases chars with
  | nil => simp [splitPieces]
  | cons c rest =>
      unfold splitPieces
      split
      · simp
      · split <;> simp

/-- The steps of a path are told by its components. -/
theorem steps_pieces (path : Path) : steps path.pieces = path.components.filterMap Component.step? := by
  unfold components
  split
  case h_1 hpieces => simp [hpieces, steps]
  case h_2 first rest hpieces =>
    rw [List.filterMap_append, steps_of_components]
    -- The first piece is special: it makes the root or a leading `.`, neither of which is a step.
    cases habsolute : path.isAbsolute with
    | true =>
        obtain ⟨others, hothers⟩ := pieces_of_absolute habsolute
        obtain ⟨rfl, rfl⟩ : first = "" ∧ rest = others := by simpa [hpieces] using hothers
        simp [hpieces, steps, silent, Component.step?]
    | false =>
        by_cases hdot : first = "."
        · simp [hpieces, steps, silent, Component.step?, hdot]
        · have hhead := step_of_piece first
          rw [hpieces, steps, List.filter_cons, ← steps]
          cases hsilent : silent first with
          | true =>
              have hnone : Component.ofPiece? first = none := by
                simp only [silent, Bool.or_eq_true, beq_iff_eq] at hsilent
                simp [Component.ofPiece?, hsilent]
              simp [hdot, hnone]
          | false =>
              rw [hsilent] at hhead
              obtain ⟨component, hcomponent, hstep⟩ := Option.bind_eq_some_iff.mp hhead
              simp [hdot, hcomponent, hstep]

/-- A path is absolute exactly when its first component is the root. -/
theorem is_absolute_iff (path : Path) :
    path.isAbsolute = true ↔ path.components.head? = some .root := by
  constructor
  · intro h
    obtain ⟨rest, hpieces⟩ := pieces_of_absolute h
    simp [components, hpieces, h]
  · intro h
    by_contra habsolute
    unfold components at h
    have hno : ∀ piece, Component.ofPiece? piece ≠ some .root := by
      intro piece hpiece
      unfold Component.ofPiece? at hpiece
      split at hpiece
      · cases hpiece
      · split at hpiece <;> cases hpiece
    split at h
    case h_1 => cases h
    case h_2 first rest hpieces =>
      rw [if_neg habsolute] at h
      have hmem := List.mem_of_mem_head? h
      rcases List.mem_append.mp hmem with hmem | hmem
      · split at hmem
        · simp at hmem
        · exact hno first (by simpa using hmem)
      · obtain ⟨piece, -, hpiece⟩ := List.mem_filterMap.mp hmem
        exact hno piece hpiece

/-- Pieces end in a step exactly when there is one piece that is a step, or the pieces behind the first
end in one. -/
theorem ends_in_step_cons {piece : String} {rest : List String} :
    EndsInStep (piece :: rest) ↔ rest = [] ∧ silent piece = false ∨ EndsInStep rest := by
  constructor
  · rintro ⟨before, last, hpieces, hlast⟩
    cases before with
    | nil =>
        obtain ⟨rfl, rfl⟩ := List.cons.inj hpieces
        exact .inl ⟨rfl, hlast⟩
    | cons head before => exact .inr ⟨before, last, (List.cons.inj hpieces).2, hlast⟩
  · rintro (⟨rfl, hpiece⟩ | ⟨before, last, rfl, hlast⟩)
    · exact ⟨[], piece, rfl, hpiece⟩
    · exact ⟨piece :: before, last, rfl, hlast⟩

/-- Pieces in front do not change that pieces end in a step. -/
theorem ends_in_step_append {pieces : List String} (h : EndsInStep pieces) (before : List String) :
    EndsInStep (before ++ pieces) := by
  obtain ⟨init, last, rfl, hlast⟩ := h
  exact ⟨before ++ init, last, by simp, hlast⟩

/-- The steps of pieces that end in a step end in it. -/
theorem ends_in_step_steps {pieces : List String} (h : EndsInStep pieces) :
    EndsInStep (steps pieces) := by
  obtain ⟨init, last, rfl, hlast⟩ := h
  exact ⟨steps init, last, by simp [steps, hlast], hlast⟩

/-- The characters of a path other than slashes stand in its pieces. -/
theorem mem_split_pieces_iff {c : Char} (hc : c ≠ '/') (chars : List Char) :
    c ∈ chars ↔ ∃ piece ∈ splitPieces chars, c ∈ piece := by
  induction chars with
  | nil => simp [splitPieces]
  | cons head rest ih =>
      by_cases hslash : head = '/'
      · simp [splitPieces, hslash, hc, ih]
      · obtain ⟨piece, more, hmore⟩ := List.exists_cons_of_ne_nil (split_pieces_ne_nil rest)
        rw [List.mem_cons, ih]
        simp only [splitPieces, hslash, if_false, hmore, List.mem_cons, exists_eq_or_imp, or_assoc]

/-- A zero character of a path stands in one of its steps. -/
theorem nul_mem_iff (path : Path) :
    '\x00' ∈ path.text.toList ↔ ∃ piece ∈ steps path.pieces, '\x00' ∈ piece.toList := by
  rw [mem_split_pieces_iff (by decide)]
  unfold steps pieces
  constructor
  · rintro ⟨piece, hpiece, hnul⟩
    refine ⟨String.ofList piece, List.mem_filter.mpr ⟨List.mem_map_of_mem hpiece, ?_⟩, by simpa⟩
    simp only [silent, Bool.not_eq_true', Bool.or_eq_false_iff, beq_eq_false_iff_ne]
    constructor <;> intro heq <;> have hchars := congrArg String.toList heq <;>
      simp only [String.toList_ofList] at hchars <;> rw [hchars] at hnul <;> simp at hnul
  · rintro ⟨piece, hpiece, hnul⟩
    obtain ⟨chars, hchars, rfl⟩ := List.mem_map.mp (List.mem_filter.mp hpiece).1
    exact ⟨chars, hchars, by simpa using hnul⟩

/-- Characters are split at a slash between them. -/
theorem split_pieces_append (before after : List Char) :
    splitPieces (before ++ '/' :: after) = splitPieces before ++ splitPieces after := by
  induction before with
  | nil => simp [splitPieces]
  | cons c rest ih =>
      by_cases hslash : c = '/'
      · simp [splitPieces, hslash, ih]
      · obtain ⟨piece, more, hmore⟩ := List.exists_cons_of_ne_nil (split_pieces_ne_nil rest)
        simp [splitPieces, hslash, ih, hmore]

/-- Characters without a slash are one piece. -/
theorem split_pieces_of_no_slash {chars : List Char} (h : '/' ∉ chars) : splitPieces chars = [chars] := by
  induction chars with
  | nil => rfl
  | cons c rest ih =>
      obtain ⟨hc, hrest⟩ := not_or.mp (List.mem_cons.not.mp h)
      simp [splitPieces, Ne.symm hc, ih hrest]

/-- Slashes in front are as many empty pieces in front. -/
theorem split_pieces_slashes (count : Nat) (chars : List Char) :
    splitPieces (List.replicate count '/' ++ chars) = List.replicate count [] ++ splitPieces chars := by
  induction count with
  | zero => rfl
  | succ count ih => simp [List.replicate_succ, splitPieces, ih]

/-- The name of a file says something. -/
theorem silent_of_file_name {name : String} (h : IsFileName name) : silent name = false := by
  simp [silent, h.not_empty, h.not_current]

/-- A path without slashes is relative. -/
theorem relative_of_no_slash {text : String} (h : '/' ∉ text.toList) : isAbsolute ⟨text⟩ = false :=
  beq_eq_false_iff_ne.mpr fun hhead => h (List.mem_of_mem_head? hhead)

/-- A path below a folder, of the name of a file, ends in that name. -/
theorem ends_in_step_join {name : String} (h : IsFileName name) (folder : Path) :
    EndsInStep (folder.join ⟨name⟩).pieces := by
  have hsilent := silent_of_file_name h
  have hsplit : splitPieces name.toList = [name.toList] := split_pieces_of_no_slash h.no_slash
  unfold join
  rw [if_neg (by simp [relative_of_no_slash h.no_slash])]
  split
  case isTrue hend =>
    rcases hend with hempty | hslash
    · exact ⟨[], name, by simp [pieces, hempty, hsplit], hsilent⟩
    · obtain ⟨before, hbefore⟩ := List.getLast?_eq_some_iff.mp hslash
      refine ⟨(splitPieces before).map String.ofList, name, ?_, hsilent⟩
      simp [pieces, hbefore, split_pieces_append, hsplit]
  case isFalse =>
    refine ⟨folder.pieces, name, ?_, hsilent⟩
    simp [pieces, split_pieces_append, hsplit]

end Path

namespace FileTree

open TestMeasures.Path (steps EndsInStep silent)

variable {follow : Place → List String → Except FileFault (Place × Node)}

/-- Everything in the tree stands under names that files and folders can have. -/
def Named (tree : FileTree) : Prop :=
  ∀ entry ∈ tree.entries, ∀ name ∈ entry.1, IsFileName name

/-- Following links does not depend on pieces that say nothing, before the end. -/
def SkipsSilent (follow : Place → List String → Except FileFault (Place × Node)) : Prop :=
  ∀ place pieces others, EndsInStep pieces → EndsInStep others → steps pieces = steps others →
    follow place pieces = follow place others

/-- Walking over pieces is walking over those that say something. -/
theorem walk_steps (tree : FileTree) (hfollow : SkipsSilent follow) {pieces : List String}
    (h : pieces = [] ∨ EndsInStep pieces) (place : Place) :
    tree.walk follow place pieces = tree.walk follow place (steps pieces) := by
  induction pieces generalizing place with
  | nil => rfl
  | cons piece rest ih =>
      have hends : EndsInStep (piece :: rest) := h.resolve_left (by simp)
      cases hsilent : silent piece with
      | true =>
          have hpiece : piece = "" ∨ piece = "." := by simpa [silent] using hsilent
          have hrest : EndsInStep rest := by simpa [Path.ends_in_step_cons, hsilent] using hends
          have hsteps : steps (piece :: rest) = steps rest := by simp [steps, hsilent]
          rw [hsteps]
          simp only [walk, if_pos hpiece]
          exact ih (.inr hrest) place
      | false =>
          have hpiece : ¬ (piece = "" ∨ piece = ".") := by simpa [silent] using hsilent
          have hrest : rest = [] ∨ EndsInStep rest :=
            (Path.ends_in_step_cons.mp hends).imp_left And.left
          have hsteps : steps (piece :: rest) = piece :: steps rest := by simp [steps, hsilent]
          -- A file may only be met at the end, and dropping silent pieces must not move the end.
          have hempty : (steps rest).isEmpty = rest.isEmpty := by
            rcases hrest with rfl | ⟨before, last, rfl, hlast⟩
            · rfl
            · rw [Bool.eq_iff_iff]
              simp [steps, hlast]
          -- A link puts its target in front of what is left, which still ends in a step.
          have hlink : ∀ place target, follow place (target ++ rest) =
              follow place (target ++ steps rest) := by
            intro place target
            rcases hrest with rfl | hrest
            · rfl
            · refine hfollow _ _ _ (Path.ends_in_step_append hrest target)
                (Path.ends_in_step_append (Path.ends_in_step_steps hrest) target) ?_
              simp [steps, List.filter_append, List.filter_filter]
          simp only [hsteps, walk, if_neg hpiece, ih hrest, hempty, hlink]

/-- Pieces that say nothing lead nowhere else. -/
theorem walk_silent (tree : FileTree) {pieces : List String} (h : ∀ piece ∈ pieces, silent piece = true)
    (place : Place) : tree.walk follow place pieces = .ok (place, .folder) := by
  induction pieces with
  | nil => rfl
  | cons piece rest ih =>
      have hpiece : piece = "" ∨ piece = "." := by simpa [silent] using h piece (by simp)
      simp only [walk, if_pos hpiece]
      exact ih fun other hother => h other (by simp [hother])

/-- Following at most so many links does not depend on pieces that say nothing, before the end. -/
theorem resolve_from_skips (tree : FileTree) (links : Nat) : SkipsSilent (tree.resolveFrom links) := by
  induction links with
  | zero =>
      intro place pieces others hpieces hothers hsteps
      have hfollow : SkipsSilent fun _ _ => .error .tooManyLinks := fun _ _ _ _ _ _ => rfl
      unfold resolveFrom
      rw [walk_steps tree hfollow (.inr hpieces), walk_steps tree hfollow (.inr hothers), hsteps]
  | succ links ih =>
      intro place pieces others hpieces hothers hsteps
      unfold resolveFrom
      rw [walk_steps tree ih (.inr hpieces), walk_steps tree ih (.inr hothers), hsteps]

/-- A piece on the way to a file leads to a place that the walk goes on from, or says something and is the
name of the file or of a link that is followed. -/
theorem walk_to_file {tree : FileTree} {place found : Place} {piece : String} {rest : List String}
    {bytes : List UInt8} (h : tree.walk follow place (piece :: rest) = .ok (found, .file bytes)) :
    (∃ next, tree.walk follow next rest = .ok (found, .file bytes)) ∨
      silent piece = false ∧
        ((rest = [] ∧ ∃ names, found = .inside names ∧ tree.node? names = some (.file bytes)) ∨
          ∃ start target, follow start (target ++ rest) = .ok (found, .file bytes)) := by
  unfold walk at h
  split at h
  case isTrue => exact .inl ⟨_, h⟩
  case isFalse hpiece =>
    have hsilent : silent piece = false := by simpa [silent] using hpiece
    split at h
    case isTrue => split at h <;> exact .inl ⟨_, h⟩
    case isFalse =>
      split at h
      case h_1 => cases h
      case h_2 names =>
        split at h
        case isTrue => cases h
        case isFalse =>
          split at h
          case h_1 => cases h
          case h_2 => exact .inl ⟨_, h⟩
          case h_3 hnode =>
            split at h
            case isFalse => cases h
            case isTrue hrest =>
              cases h
              exact .inr ⟨hsilent, .inl ⟨List.isEmpty_iff.mp hrest, _, rfl, hnode⟩⟩
          case h_4 => split at h <;> exact .inr ⟨hsilent, .inr ⟨_, _, h⟩⟩

/-- What leads to a file does not end in a piece that says nothing. -/
theorem ends_in_step_of_walk (tree : FileTree)
    (hfollow : ∀ place pieces found bytes, follow place pieces = .ok (found, .file bytes) →
      EndsInStep pieces)
    {place found : Place} {pieces : List String} {bytes : List UInt8}
    (h : tree.walk follow place pieces = .ok (found, .file bytes)) : EndsInStep pieces := by
  induction pieces generalizing place with
  | nil => cases h
  | cons piece rest ih =>
      rw [Path.ends_in_step_cons]
      rcases walk_to_file h with ⟨next, hnext⟩ | ⟨hsilent, ⟨hrest, -⟩ | ⟨start, target, htarget⟩⟩
      · exact .inr (ih hnext)
      · exact .inl ⟨hrest, hsilent⟩
      · -- If anything is left behind the link, its last piece is the last one that was followed.
        obtain ⟨before, last, hpieces, hlast⟩ := hfollow _ _ _ _ htarget
        rcases List.eq_nil_or_concat rest with rfl | ⟨init, final, rfl⟩
        · exact .inl ⟨rfl, hsilent⟩
        · refine .inr ⟨init, final, by simp, ?_⟩
          have hfinal : final = last := by
            have hgetLast := congrArg List.getLast? hpieces
            simpa using hgetLast
          rw [hfinal, hlast]

/-- A walk from a place that comes to a file ends in a step. -/
theorem ends_in_step_of_resolve_from (tree : FileTree) (links : Nat) :
    ∀ place pieces found bytes, tree.resolveFrom links place pieces = .ok (found, .file bytes) →
      EndsInStep pieces := by
  induction links with
  | zero =>
      intro place pieces found bytes h
      exact ends_in_step_of_walk tree (fun _ _ _ _ h => by cases h) h
  | succ links ih =>
      intro place pieces found bytes h
      exact ends_in_step_of_walk tree ih h

/-- What a path leads to is found by walking over its pieces. -/
theorem walk_of_resolve {tree : FileTree} {path : Path} {found : Place × Node}
    (h : tree.resolve path = .ok found) :
    tree.resolveFrom linkLimit (if path.isAbsolute then .outside else .inside []) path.pieces =
      .ok found := by
  unfold resolve at h
  split at h
  · cases h
  · split at h
    · cases h
    · split at h
      · cases h
      · exact h

/-- A path that leads to a file ends in a piece that says something. -/
theorem ends_in_step_of_is_file {tree : FileTree} {path : Path} (h : tree.isFile path = true) :
    EndsInStep path.pieces := by
  unfold isFile at h
  split at h
  case h_1 found bytes hresolve =>
    exact ends_in_step_of_resolve_from tree linkLimit _ _ _ _ (walk_of_resolve hresolve)
  case h_2 => cases h

/-- A path that is too long for the system leads nowhere. -/
theorem resolve_of_long (tree : FileTree) {path : Path} (h : pathLimit < path.text.utf8ByteSize) :
    ∃ fault, tree.resolve path = .error fault := by
  unfold resolve
  rw [if_pos h]
  split
  · exact ⟨_, rfl⟩
  · split <;> exact ⟨_, rfl⟩

/-- Two spellings of the same components that both end in a step and are both short enough lead to the
same place. -/
theorem resolve_eq_of_same (tree : FileTree) {path other : Path}
    (hsame : path.components = other.components)
    (hpath : EndsInStep path.pieces) (hother : EndsInStep other.pieces)
    (hlength : path.text.utf8ByteSize ≤ pathLimit) (hlength' : other.text.utf8ByteSize ≤ pathLimit) :
    tree.resolve path = tree.resolve other := by
  have hsteps : steps path.pieces = steps other.pieces := by
    rw [Path.steps_pieces, Path.steps_pieces, hsame]
  have hnul : '\x00' ∈ path.text.toList ↔ '\x00' ∈ other.text.toList := by
    rw [Path.nul_mem_iff, Path.nul_mem_iff, hsteps]
  have habsolute : path.isAbsolute = other.isAbsolute := by
    rw [Bool.eq_iff_iff, Path.is_absolute_iff, Path.is_absolute_iff, hsame]
  -- The empty text has a single piece, and that one is silent.
  have hempty : ∀ {path : Path}, EndsInStep path.pieces → path.text ≠ "" := by
    intro path hends htext
    obtain ⟨before, last, hpieces, hlast⟩ := hends
    have hpieces' : path.pieces = [""] := by simp [Path.pieces, htext, Path.splitPieces]
    rw [hpieces'] at hpieces
    have hlastEmpty : last = "" := by simpa using congrArg List.getLast? hpieces.symm
    simp [hlastEmpty, silent] at hlast
  unfold resolve
  simp only [hnul, habsolute, if_neg (hempty hpath), if_neg (hempty hother),
    if_neg (Nat.not_lt.mpr hlength), if_neg (Nat.not_lt.mpr hlength')]
  rw [resolve_from_skips tree linkLimit _ _ _ hpath hother hsteps]

end FileTree

namespace Path

/-- The working directory, spelled with more than so many slashes behind a point. -/
def slashed (slashes : Nat) : Path :=
  ⟨"." ++ String.ofList (List.replicate (slashes + 1) '/')⟩

variable (slashes : Nat)

/-- The slashed spelling is as long as a point and its slashes. -/
theorem slashed_size : (slashed slashes).text.utf8ByteSize = slashes + 2 := by
  induction slashes with
  | zero => rfl
  | succ slashes ih =>
      have hsplit : List.replicate (slashes + 2) '/' = List.replicate (slashes + 1) '/' ++ ['/'] :=
        List.replicate_succ'
      simp only [slashed, hsplit, String.ofList_append, String.utf8ByteSize_append] at ih ⊢
      rw [← Nat.add_assoc, ih]
      rfl

/-- A name is appended to the slashed spelling without another slash. -/
theorem slashed_join {name : String} (h : isAbsolute ⟨name⟩ = false) :
    (slashed slashes).join ⟨name⟩ = ⟨(slashed slashes).text ++ name⟩ := by
  have htext : (slashed slashes).text.toList = ['.'] ++ List.replicate slashes '/' ++ ['/'] := by
    simp [slashed, List.replicate_succ']
  have hslash : (slashed slashes).text.toList.getLast? = some '/' := by
    rw [htext, List.getLast?_concat]
  unfold join
  rw [if_neg (by simp [h]), if_pos (.inr hslash)]

/-- What stands behind the slashed spelling is no absolute path. -/
theorem slashed_is_relative (name : String) :
    (Path.mk ((slashed slashes).text ++ name)).isAbsolute = false := by
  simp [isAbsolute, slashed]

/-- The pieces of a name behind the slashed spelling stand behind a point and the empty pieces of the
slashes. -/
theorem slashed_pieces (name : String) :
    (Path.mk ((slashed slashes).text ++ name)).pieces =
      "." :: (List.replicate slashes "" ++ (Path.mk name).pieces) := by
  have htext : ((slashed slashes).text ++ name).toList =
      ['.'] ++ '/' :: (List.replicate slashes '/' ++ name.toList) := by
    simp [slashed, List.replicate_succ]
  rw [pieces, htext, split_pieces_append, split_pieces_slashes]
  simp [splitPieces, pieces]

/-- The number of slashes makes no difference to the components. -/
theorem slashed_components (name : String) :
    (Path.mk ((slashed slashes).text ++ name)).components =
      .current :: (Path.mk name).pieces.filterMap Component.ofPiece? := by
  have hsilent : (List.replicate slashes "").filterMap Component.ofPiece? = [] := by
    induction slashes <;> simp_all [List.replicate_succ, Component.ofPiece?]
  rw [components, slashed_pieces]
  simp only [slashed_is_relative, List.filterMap_append, hsilent]
  rfl

end Path

namespace FileTree

variable (tree : FileTree) {slashes : Nat}

/-- What stands below a slashed spelling is found while the text is short enough. -/
theorem resolve_slashed {name : String} (hname : Path.EndsInStep (Path.mk name).pieces)
    (hlength : slashes + 2 + name.utf8ByteSize ≤ pathLimit) :
    tree.resolve ⟨(Path.slashed slashes).text ++ name⟩ = tree.resolve ⟨(Path.slashed 0).text ++ name⟩ := by
  have hends : ∀ count, Path.EndsInStep (Path.mk ((Path.slashed count).text ++ name)).pieces := by
    intro count
    rw [Path.slashed_pieces]
    exact Path.ends_in_step_append hname ("." :: List.replicate count "")
  have hsize : ∀ count, (Path.mk ((Path.slashed count).text ++ name)).text.utf8ByteSize =
      count + 2 + name.utf8ByteSize := by
    intro count
    rw [String.utf8ByteSize_append, Path.slashed_size]
  have hsame := (Path.slashed_components slashes name).trans (Path.slashed_components 0 name).symm
  exact resolve_eq_of_same tree hsame (hends slashes) (hends 0) (by rw [hsize]; exact hlength)
    (by rw [hsize]; omega)

/-- The slashed spelling leads to the working directory as long as it fits the limit. -/
theorem resolve_slashed_folder (hlength : slashes + 3 ≤ pathLimit) :
    tree.resolve ⟨(Path.slashed slashes).text ++ "."⟩ = .ok (.inside [], .folder) := by
  have hsilent : ∀ piece ∈ (Path.mk ((Path.slashed slashes).text ++ ".")).pieces, Path.silent piece = true := by
    rw [Path.slashed_pieces]
    intro piece hpiece
    have hpoint : (Path.mk ".").pieces = ["."] := rfl
    simp only [List.mem_cons, List.mem_append, List.mem_replicate, hpoint, List.not_mem_nil,
      or_false] at hpiece
    rcases hpiece with rfl | ⟨-, rfl⟩ | rfl <;> rfl
  have hsize : ((Path.slashed slashes).text ++ ".").utf8ByteSize = slashes + 3 := by
    rw [String.utf8ByteSize_append, Path.slashed_size]
    rfl
  unfold resolve linkLimit resolveFrom
  rw [if_neg (by simp [Path.slashed]), if_neg (by simp [Path.slashed]), if_neg (by rw [hsize]; omega),
    Path.slashed_is_relative]
  exact walk_silent tree hsilent _

end FileTree

end TestMeasures
