import Mathlib.Data.List.Nodup
import TestMeasures.Proofs.DocumentTags

/-!
# The elements of a document as a tree

The reading of a document is a flat list of start tags, each with the number of elements around it.
`Reading.tree` builds the elements back from it, and `Reading.tree_of_complete` says that this is the
tree of the document whenever the document can be read to its end: the tree has all start tags in
document order, at their true depths. `TagForest.sites_split` says where an element stands among the
tags: right before those inside it, with everything behind its end after them.
-/

namespace TestMeasures

open Xml (Parser Markup)

/-- Elements side by side, each with its start tag and the elements inside it. -/
inductive TagForest where
  | nil
  | node (tag : Tag) (inner rest : TagForest)
deriving Repr, DecidableEq

/-- Where an element stands: its start tag, the start tags inside it, and those behind its end. -/
structure Site where
  tag : Tag
  inside : List Tag
  behind : List Tag
deriving Repr, DecidableEq

namespace TagForest

/-- The start tags in document order. -/
def tags : TagForest → List Tag
  | .nil => []
  | .node tag inner rest => tag :: (inner.tags ++ rest.tags)

/-- The elements in document order, in front of some more tags. -/
def sites (behind : List Tag) : TagForest → List Site
  | .nil => []
  | .node tag inner rest =>
    ⟨tag, inner.tags, rest.tags ++ behind⟩ ::
      (inner.sites (rest.tags ++ behind) ++ rest.sites behind)

/-- An element lies inside of another one, at any depth. -/
def Encloses (forest : TagForest) (outer inner : Tag) : Prop :=
  ∃ site ∈ forest.sites [], site.tag = outer ∧ inner ∈ site.inside

/-- Every tag tells the number of elements around it. -/
def Nested : Nat → TagForest → Prop
  | _, .nil => True
  | depth, .node tag inner rest =>
    tag.depth = depth ∧ inner.Nested (depth + 1) ∧ rest.Nested depth

/-- The elements at a depth that stand in front of the first tag of a lower one, each with the deeper
ones that follow it. -/
def ofTags : List Tag → Nat → TagForest
  | [], _ => .nil
  | tag :: tags, depth =>
    if tag.depth < depth then .nil
    else if tag.depth = depth then .node tag (ofTags tags (depth + 1)) (ofTags tags depth)
    else ofTags tags depth

/-- The start tag of every element stands in front of those inside it, and these in front of all that
is behind its end. -/
theorem sites_split {forest : TagForest} {behind : List Tag} {site : Site}
    (h : site ∈ forest.sites behind) :
    ∃ before, forest.tags ++ behind = before ++ site.tag :: (site.inside ++ site.behind) := by
  induction forest generalizing behind with
  | nil => cases h
  | node tag inner rest hinner hrest =>
      simp only [sites, List.mem_cons, List.mem_append] at h
      rcases h with rfl | h | h
      · exact ⟨[], by simp [tags]⟩
      · obtain ⟨before, hbefore⟩ := hinner h
        exact ⟨tag :: before, by simp [tags, hbefore]⟩
      · obtain ⟨before, hbefore⟩ := hrest h
        exact ⟨tag :: (inner.tags ++ before), by simp [tags, hbefore]⟩

/-- The sites of a forest are those of its tags, in order. -/
theorem sites_tags (forest : TagForest) (behind : List Tag) :
    (forest.sites behind).map Site.tag = forest.tags := by
  induction forest generalizing behind with
  | nil => rfl
  | node tag inner rest hinner hrest => simp [sites, tags, hinner, hrest]

/-- Where tags differ, an element stands in one place only. -/
theorem site_unique {forest : TagForest} (h : forest.tags.Nodup) {site other : Site}
    (hsite : site ∈ forest.sites []) (hother : other ∈ forest.sites [])
    (htag : site.tag = other.tag) : site = other := by
  rw [← sites_tags forest []] at h
  exact List.inj_on_of_nodup_map h hsite hother htag

/-- No tag of a nested forest is further out than the forest. -/
theorem mem_tags_of_nested {forest : TagForest} {depth : Nat} (h : forest.Nested depth) :
    ∀ tag ∈ forest.tags, depth ≤ tag.depth := by
  induction forest generalizing depth with
  | nil => simp [tags]
  | node tag inner rest hinner hrest =>
      obtain ⟨rfl, hin, hre⟩ := h
      intro other hother
      simp only [tags, List.mem_cons, List.mem_append] at hother
      rcases hother with rfl | hother | hother
      · exact Nat.le_refl _
      · exact Nat.le_of_succ_le (hinner hin other hother)
      · exact hrest hre other hother

/-- Deeper tags in front are passed over. -/
theorem of_tags_skip {tags : List Tag} {depth : Nat} (h : ∀ tag ∈ tags, depth < tag.depth)
    (others : List Tag) : ofTags (tags ++ others) depth = ofTags others depth := by
  induction tags with
  | nil => rfl
  | cons tag tags ih =>
      obtain ⟨htag, htags⟩ := List.forall_mem_cons.mp h
      rw [List.cons_append, ofTags, if_neg (Nat.lt_asymm htag), if_neg (Nat.ne_of_gt htag)]
      exact ih htags

/-- Elements are built back from their tags, in front of tags of a lower depth. -/
theorem of_tags_append {forest : TagForest} {depth : Nat} (h : forest.Nested depth)
    {others : List Tag} (hothers : ∀ tag ∈ others.head?, tag.depth < depth) :
    ofTags (forest.tags ++ others) depth = forest := by
  induction forest generalizing depth others with
  | nil =>
      cases others with
      | nil => rfl
      | cons tag others => exact if_pos (hothers tag rfl)
  | node tag inner rest hinner hrest =>
      obtain ⟨rfl, hin, hre⟩ := h
      -- What stands behind the inner elements begins at the depth of this one, or a lower one.
      have hbehind : ∀ other ∈ (rest.tags ++ others).head?, other.depth < tag.depth + 1 := by
        intro other hother
        cases rest with
        | nil => exact Nat.lt_succ_of_lt (hothers other hother)
        | node next _ _ =>
            obtain rfl : next = other := Option.some.inj hother
            exact Nat.lt_succ_of_le (Nat.le_of_eq hre.1)
      have hdeeper : ∀ other ∈ inner.tags, tag.depth < other.depth := mem_tags_of_nested hin
      rw [tags, List.cons_append, List.append_assoc, ofTags, if_neg (Nat.lt_irrefl _), if_pos rfl,
        hinner hin hbehind, of_tags_skip hdeeper, hrest hre hothers]

end TagForest

/-- Tags behind an open element: the rest of the elements inside it, those of the element around it,
and so on. -/
inductive Closes : Nat → List Tag → Prop where
  | root {forest : TagForest} (h : forest.Nested 0) : Closes 0 forest.tags
  | level {depth : Nat} {forest : TagForest} {tags : List Tag} (h : forest.Nested (depth + 1))
      (hrest : Closes depth tags) : Closes (depth + 1) (forest.tags ++ tags)

namespace Closes

variable {depth : Nat} {tag : Tag} {tags : List Tag}

/-- What stands behind an element stands behind the last one inside of it, too. -/
theorem close (h : Closes depth tags) : Closes (depth + 1) tags := by
  have hnil : TagForest.nil.Nested (depth + 1) := trivial
  exact .level hnil h

/-- A start tag in front takes in the elements of the level below. -/
theorem opened (h : Closes (depth + 1) tags) (htag : tag.depth = depth) :
    Closes depth (tag :: tags) := by
  cases h with
  | @level _ inner _ hinner hrest =>
      cases hrest with
      | @root rest hrest =>
          have hnode : (TagForest.node tag inner rest).Nested 0 := ⟨htag, hinner, hrest⟩
          exact .root hnode
      | @level _ rest tags hrest hothers =>
          have hnode : (TagForest.node tag inner rest).Nested _ := ⟨htag, hinner, hrest⟩
          simpa [TagForest.tags] using Closes.level hnode hothers

end Closes

namespace Xml.Parser

variable {parser after final : Parser} {event : Markup.Event} {events : List Markup.Event}

/-- The parser opens and closes names as the number of open elements goes up and down, and closes only
what is open. -/
theorem next_unclosed (h : parser.next = (event, after)) (hevent : event.isLast = false) :
    after.unclosed.length = event.depthBehind parser.unclosed.length ∧
      (event = .closed → parser.unclosed.length ≠ 0) := by
  unfold next at h
  simp only at h
  split at h
  case h_1 => cases h; cases hevent
  case h_2 =>
    split at h
    case h_1 => cases h; cases hevent
    case h_2 markup rest hscan =>
      cases markup with
      | opening | empty | other => cases h; exact ⟨rfl, by simp⟩
      | namelessDoctype => cases h; cases hevent
      | closing name =>
          simp only [meet] at h
          split at h
          case h_1 => cases h; cases hevent
          case h_2 expected outer hunclosed =>
            split at h
            case isTrue =>
              cases h
              simp [hunclosed, Markup.Event.depthBehind]
            case isFalse => cases h; cases hevent

/-- The tags up to the end of a document in which every element is closed. -/
theorem Reads.closes (h : parser.Reads events final) {depth : Nat}
    (hdepth : parser.unclosed.length = depth)
    (hend : events.foldl Markup.Event.depthBehind depth = 0) :
    Closes depth (Markup.Event.tags depth events) := by
  induction h generalizing depth with
  | nil =>
      obtain rfl : depth = 0 := hend
      have hnil : TagForest.nil.Nested 0 := trivial
      exact .root hnil
  | @cons parser after final event events hnext hevent hrest ih =>
      obtain ⟨hunclosed, hopen⟩ := next_unclosed hnext hevent
      rw [hdepth] at hunclosed hopen
      have hothers : Closes (event.depthBehind depth)
          (Markup.Event.tags (event.depthBehind depth) events) := ih hunclosed hend
      cases event with
      | opened position content => exact hothers.opened rfl
      | empty position content => exact hothers.close.opened rfl
      | closed =>
          obtain ⟨outer, rfl⟩ := Nat.exists_eq_succ_of_ne_zero (hopen rfl)
          exact hothers.close
      | other => exact hothers
      | fault | finished => cases hevent

end Xml.Parser

namespace Reading

/-- The elements of a document. -/
def tree (reading : Reading) : TagForest :=
  .ofTags reading.tags 0

/-- A document that can be read to its end is the document of its tree. -/
theorem tree_of_complete {bytes : List UInt8} (h : (ofBytes bytes).ending = .ok ()) :
    (ofBytes bytes).tree.tags = (ofBytes bytes).tags ∧ (ofBytes bytes).tree.Nested 0 := by
  obtain ⟨events, final, hreads, hlast⟩ := Parser.reads_to_last (Parser.ofBytes bytes)
  have hreading := of_bytes_eq hreads hlast
  have hend : events.foldl Markup.Event.depthBehind 0 = 0 := by
    rw [hreading] at h
    unfold Markup.Event.ending at h
    split at h
    · cases h
    · split at h
      · cases h
      · omega
  have hcloses : Closes 0 (Markup.Event.tags 0 events) := hreads.closes rfl hend
  rw [tree, hreading]
  generalize Markup.Event.tags 0 events = tags at hcloses ⊢
  cases hcloses with
  | @root forest hforest =>
      have hforestTags : TagForest.ofTags forest.tags 0 = forest := by
        have hback : TagForest.ofTags (forest.tags ++ []) 0 = forest :=
          TagForest.of_tags_append hforest (by simp)
        rwa [List.append_nil] at hback
      simp only [hforestTags]
      exact ⟨trivial, hforest⟩

/-- The start tags of a document stand in different places, so that no two of them are the same. -/
theorem tags_nodup (bytes : List UInt8) : (ofBytes bytes).tags.Nodup := by
  obtain ⟨events, final, hreads, hlast⟩ := Parser.reads_to_last (Parser.ofBytes bytes)
  rw [of_bytes_eq hreads hlast]
  exact (hreads.positions 0).2.imp fun hlt heq => Nat.ne_of_lt hlt (congrArg Tag.position heq)

end Reading

end TestMeasures
