import Mathlib.Data.List.Nodup
import TestMeasures.Report.Reader

/-!
# Documents as they are written

A `Forest` is a sequence of elements with text and comments between their tags, together with the
choices that a writer has: the quotes of each value, the white space inside tags, and for an element
without content one tag or two. `Forest.document` is the text of such a document and
`Forest.elements` what it says: the elements in the order of their start tags, with local names,
depths and attributes.
-/

namespace TestMeasures

namespace Xml

/-- A character that is white space in markup. -/
def IsSpaceChar (c : Char) : Prop :=
  c = ' ' ∨ c = '\t' ∨ c = '\n' ∨ c = '\r'

instance : DecidablePred IsSpaceChar :=
  fun c => inferInstanceAs (Decidable (c = ' ' ∨ c = '\t' ∨ c = '\n' ∨ c = '\r'))

/-- White space between the parts of a tag. -/
structure Gap where
  chars : List Char
  space : ∀ c ∈ chars, IsSpaceChar c

/-- No white space. -/
def Gap.none : Gap :=
  ⟨[], by simp⟩

/-- The signs of markup that no name has. -/
def signs : List Char :=
  ['"', '\'', '<', '>', '/', '=']

/-- A name has neither white space nor quotes nor the signs of markup, and begins neither like a
declaration nor like an instruction. -/
structure IsName (name : List Char) : Prop where
  nonempty : name ≠ []
  noSpace : ∀ c ∈ name, ¬ IsSpaceChar c
  noSign : ∀ c ∈ signs, c ∉ name
  start : name.head? ≠ some '!' ∧ name.head? ≠ some '?'

instance (name : List Char) : Decidable (IsName name) :=
  -- The characters of the name are tried, not all characters there are.
  letI : Decidable (∀ c ∈ name, ¬ IsSpaceChar c) := List.decidableBAll _ _
  letI : Decidable (∀ c ∈ signs, c ∉ name) := List.decidableBAll _ _
  decidable_of_iff (name ≠ [] ∧ (∀ c ∈ name, ¬ IsSpaceChar c) ∧ (∀ c ∈ signs, c ∉ name) ∧
      name.head? ≠ some '!' ∧ name.head? ≠ some '?')
    ⟨fun ⟨nonempty, noSpace, noSign, start⟩ => ⟨nonempty, noSpace, noSign, start⟩,
      fun h => ⟨h.nonempty, h.noSpace, h.noSign, h.start⟩⟩

/-- A local name behind an optional prefix. -/
def qualified (pre : Option String) (base : String) : List Char :=
  match pre with
  | none => base.toList
  | some pre => pre.toList ++ ':' :: base.toList

/-- The name of an element. Its prefix ends at the first colon, so without one it has no colon. -/
structure ElementName where
  pre : Option String
  base : String
  isName : IsName (qualified pre base)
  noColon : ':' ∉ (pre.getD base).toList

/-- How a value is quoted. -/
inductive QuoteStyle where
  | single
  | double

/-- The quotation mark of a style. -/
def QuoteStyle.mark : QuoteStyle → Char
  | .single => '\''
  | .double => '"'

/-- A character of a value as it is written: the signs of markup become their entities. -/
def escapeChar (c : Char) : List Char :=
  if c = '&' then "&amp;".toList
  else if c = '<' then "&lt;".toList
  else if c = '>' then "&gt;".toList
  else if c = '"' then "&quot;".toList
  else if c = '\'' then "&apos;".toList
  else [c]

/-- A value as it is written. -/
def escape (value : String) : List Char :=
  value.toList.flatMap escapeChar

/-- An attribute with white space before it and around its `=`. The value is any text. -/
structure WrittenAttribute where
  name : String
  value : String
  quote : QuoteStyle
  gap : Gap
  beforeEquals : Gap
  behindEquals : Gap
  isName : IsName name.toList
  gap_nonempty : gap.chars ≠ []

/-- The characters of an attribute. -/
def WrittenAttribute.chars (given : WrittenAttribute) : List Char :=
  given.gap.chars ++ given.name.toList ++ given.beforeEquals.chars ++ ['='] ++
    given.behindEquals.chars ++ [given.quote.mark] ++ escape given.value ++ [given.quote.mark]

/-- What stands in a start tag or an empty-element tag. The names of its attributes differ. -/
structure WrittenTag where
  name : ElementName
  attributes : List WrittenAttribute
  tail : Gap
  distinct : (attributes.map WrittenAttribute.name).Nodup

namespace WrittenTag

/-- The characters of a tag's name. -/
def nameChars (tag : WrittenTag) : List Char :=
  qualified tag.name.pre tag.name.base

/-- The characters of a tag between its brackets. -/
def chars (tag : WrittenTag) : List Char :=
  tag.nameChars ++ tag.attributes.flatMap WrittenAttribute.chars ++ tag.tail.chars

/-- What can stand in a tag without prefixes: the name of an element and different names of
attributes. -/
def PlainNames (name : String) (attributeNames : List String) : Prop :=
  (IsName name.toList ∧ ':' ∉ name.toList) ∧
    (∀ attributeName ∈ attributeNames, IsName attributeName.toList) ∧ attributeNames.Nodup

instance (name : String) (attributeNames : List String) :
    Decidable (PlainNames name attributeNames) :=
  inferInstanceAs (Decidable (_ ∧ _))

/-- A tag without a prefix, one blank before each attribute and none elsewhere, and values in double
quotes. -/
def plain (name : String) (attributes : List (String × String))
    (h : PlainNames name (attributes.map Prod.fst)) : WrittenTag where
  name := ⟨Option.none, name, h.1.1, h.1.2⟩
  attributes := attributes.attach.map fun given =>
    ⟨given.1.1, given.1.2, .double, ⟨[' '], by simp [IsSpaceChar]⟩, .none, .none,
      h.2.1 given.1.1 (List.mem_map_of_mem given.2), by simp⟩
  tail := .none
  distinct := by
    have hnames := congrArg (List.map Prod.fst) (List.attach_map_subtype_val attributes)
    rw [List.map_map] at hnames ⊢
    exact Eq.mpr (congrArg List.Nodup hnames) h.2.2

end WrittenTag

/-- A text between tags. -/
structure PlainText where
  chars : List Char
  plain : '<' ∉ chars

/-- What stands in a comment. -/
structure CommentText where
  chars : List Char
  noDash : '-' ∉ chars

/-- A sequence of elements, texts and comments. An element is written as one tag or as two with what
is inside it between them. -/
inductive Forest where
  | nil
  | text (content : PlainText) (rest : Forest)
  | comment (content : CommentText) (rest : Forest)
  | empty (tag : WrittenTag) (rest : Forest)
  | element (tag : WrittenTag) (inner : Forest) (tail : Gap) (rest : Forest)

/-- The characters of a document. -/
def Forest.chars : Forest → List Char
  | .nil => []
  | .text content rest => content.chars ++ rest.chars
  | .comment content rest => "<!--".toList ++ content.chars ++ "-->".toList ++ rest.chars
  | .empty tag rest => ['<'] ++ tag.chars ++ "/>".toList ++ rest.chars
  | .element tag inner tail rest =>
    ['<'] ++ tag.chars ++ ['>'] ++ inner.chars ++ "</".toList ++ tag.nameChars ++ tail.chars ++
      ['>'] ++ rest.chars

/-- The text of a document. -/
def Forest.document (forest : Forest) : String :=
  String.ofList forest.chars

end Xml

/-- An element as a document says it: its local name, the number of elements around it, and its
attributes. -/
structure Element where
  name : String
  depth : Nat
  attributes : List (String × String)
deriving Repr, DecidableEq

/-- The element that a tag opens. -/
def Xml.WrittenTag.element (tag : Xml.WrittenTag) (depth : Nat) : Element :=
  ⟨tag.name.base, depth, tag.attributes.map fun given => (given.name, given.value)⟩

/-- The element of a plain tag has the name and the attributes of the tag. -/
theorem Xml.WrittenTag.plain_element {name : String} {attributes : List (String × String)}
    {h : PlainNames name (attributes.map Prod.fst)} (depth : Nat) :
    (plain name attributes h).element depth = ⟨name, depth, attributes⟩ := by
  have hattributes := List.attach_map_subtype_val attributes
  rw [element, plain, List.map_map]
  exact congrArg (Element.mk name depth) hattributes

/-- The elements of a document, each before those inside it. -/
def Xml.Forest.elements (depth : Nat) : Xml.Forest → List Element
  | .nil => []
  | .text _ rest => rest.elements depth
  | .comment _ rest => rest.elements depth
  | .empty tag rest => tag.element depth :: rest.elements depth
  | .element tag inner _ rest =>
    tag.element depth :: (inner.elements (depth + 1) ++ rest.elements depth)

/-- A tag shows an element: it has its name and depth, each attribute has exactly its value, and no
other attribute is there. -/
structure Tag.Shows (tag : Tag) (element : Element) : Prop where
  name : tag.name = element.name
  depth : tag.depth = element.depth
  present : ∀ given ∈ element.attributes, tag.optional given.1 = .ok (some given.2)
  absent : ∀ name ∉ element.attributes.map Prod.fst, tag.optional name = .ok none

/-- Asked for tag after tag, a reader answers some tags and then the end of the document. The
attributes that can be read behind each answer are those of that tag. -/
inductive Reader.Answers : Reader → List Tag → Prop where
  | finished {reader after : Reader} (hnext : reader.next = (.ok none, after)) : Answers reader []
  | tag {reader after : Reader} {tag : Tag} {tags : List Tag}
      (hnext : reader.next = (.ok (some tag), after)) (htag : after.tag = tag)
      (hrest : Answers after tags) : Answers reader (tag :: tags)

end TestMeasures
