import TestMeasures.Proofs.DocumentTree
import TestMeasures.Proofs.ReaderRoundTrip
import TestMeasures.Proofs.TableMerge
import TestMeasures.Proofs.TestAccounts

/-!
# Tests under the assemblies around them

The rules that record tests at once know the assembly that was read last, not the one that a test
stands in. `AssemblyFormat.charges` is what a tree amounts to by recursion: each test is looked up under
the assembly around it. `parse_follows_tree` says that parsing adds just that, for every document in
which assemblies do not contain each other and tests stand inside of them, and that the order of the
assemblies does not matter.
-/

namespace TestMeasures

namespace TagForest

variable {tree : TagForest} {bytes : List UInt8} {depth : Nat}

/-- The outermost elements. -/
def roots : TagForest → List Tag
  | .nil => []
  | .node tag _ rest => tag :: rest.roots

/-- The bytes of a document are those of a tree: they can be read to the end, and have the tags of
the tree with their true depths. -/
structure RenderedBy (tree : TagForest) (bytes : List UInt8) : Prop where
  complete : (Reading.ofBytes bytes).ending = .ok ()
  tags : (Reading.ofBytes bytes).tags = tree.tags
  nested : tree.Nested 0

/-- A tree shows a written document: every element has its tag, with its own elements inside it. -/
inductive Shows : Nat → TagForest → Xml.Forest → Prop where
  | nil (depth : Nat) : Shows depth .nil .nil
  | text {depth : Nat} {tree : TagForest} {rest : Xml.Forest} (content : Xml.PlainText)
      (hrest : Shows depth tree rest) : Shows depth tree (.text content rest)
  | comment {depth : Nat} {tree : TagForest} {rest : Xml.Forest} (content : Xml.CommentText)
      (hrest : Shows depth tree rest) : Shows depth tree (.comment content rest)
  | empty {depth : Nat} {tag : Tag} {others : TagForest} {written : Xml.WrittenTag}
      {rest : Xml.Forest} (htag : tag.Shows (written.element depth))
      (hrest : Shows depth others rest) : Shows depth (.node tag .nil others) (.empty written rest)
  | element {depth : Nat} {tag : Tag} {content others : TagForest} {written : Xml.WrittenTag}
      {inner rest : Xml.Forest} (tail : Xml.Gap) (htag : tag.Shows (written.element depth))
      (hinner : Shows (depth + 1) content inner) (hrest : Shows depth others rest) :
      Shows depth (.node tag content others) (.element written inner tail rest)

/-- The tree of a document is the only one with its tags. -/
theorem eq_of_tags {other : TagForest} (h : tree.Nested 0) (hother : other.Nested 0)
    (htags : tree.tags = other.tags) : tree = other := by
  have hback : ofTags (tree.tags ++ []) 0 = tree := of_tags_append h (by simp)
  rw [htags, of_tags_append hother (by simp)] at hback
  exact hback.symm

/-- Every document that can be read to its end is the document of a tree. -/
theorem rendered_of_complete (h : (Reading.ofBytes bytes).ending = .ok ()) :
    (Reading.ofBytes bytes).tree.RenderedBy bytes :=
  ⟨h, (Reading.tree_of_complete h).1.symm, (Reading.tree_of_complete h).2⟩

/-- Tags that show the elements of a written document are those of a tree that shows the document. -/
theorem shows_of_elements {written : Xml.Forest} {tags : List Tag}
    (h : List.Forall₂ Tag.Shows tags (written.elements depth)) :
    ∃ tree : TagForest, tree.tags = tags ∧ tree.Nested depth ∧ tree.Shows depth written := by
  induction written generalizing depth tags with
  | nil =>
      cases h
      exact ⟨.nil, rfl, trivial, .nil depth⟩
  | text content rest ih =>
      obtain ⟨tree, htags, hnested, hshows⟩ := ih h
      exact ⟨tree, htags, hnested, hshows.text content⟩
  | comment content rest ih =>
      obtain ⟨tree, htags, hnested, hshows⟩ := ih h
      exact ⟨tree, htags, hnested, hshows.comment content⟩
  | empty written rest ih =>
      cases h with
      | @cons tag _ _ _ htag hrest =>
          obtain ⟨others, rfl, hnested, hshows⟩ := ih hrest
          exact ⟨.node tag .nil others, rfl, ⟨htag.depth, trivial, hnested⟩, hshows.empty htag⟩
  | element written inner tail rest hinner hrest =>
      cases h with
      | @cons tag _ tags _ htag hothers =>
          have htake := List.forall₂_take_append tags _ _ hothers
          have hdrop := List.forall₂_drop_append tags _ _ hothers
          obtain ⟨content, hcontent, hin, hshows⟩ := hinner htake
          obtain ⟨others, hrestTags, hre, hshowsRest⟩ := hrest hdrop
          refine ⟨.node tag content others, ?_, ⟨htag.depth, hin, hre⟩, .element tail htag hshows hshowsRest⟩
          rw [TagForest.tags, hcontent, hrestTags, List.take_append_drop]

/-- The tree of a written document shows it. -/
theorem RenderedBy.shows {written : Xml.Forest}
    (h : tree.RenderedBy (Text.Utf8.encode written.document)) : tree.Shows 0 written := by
  obtain ⟨-, hshows⟩ := Reading.of_written written
  rw [h.tags] at hshows
  obtain ⟨other, htags, hnested, hother⟩ := shows_of_elements hshows
  rwa [eq_of_tags h.nested hnested htags.symm]

/-- The tags at the depth of a nested tree are its roots. -/
theorem mem_roots (h : tree.Nested depth) : ∀ tag ∈ tree.tags, tag.depth = depth → tag ∈ tree.roots := by
  induction tree with
  | nil => exact fun tag htag => absurd htag List.not_mem_nil
  | node first inner rest _ hrest =>
      obtain ⟨hfirst, hin, hre⟩ := h
      intro tag htag hdepth
      simp only [tags, List.mem_cons, List.mem_append] at htag
      rcases htag with rfl | htag | htag
      · exact List.mem_cons_self
      · have hdeeper := mem_tags_of_nested hin tag htag
        omega
      · exact List.mem_cons_of_mem _ (hrest hre tag htag hdepth)

/-- A document of a tree is admitted when its outermost elements, of which there is one, may be. -/
theorem RenderedBy.admits {σ : Type} {rules : Rules σ} (h : tree.RenderedBy bytes)
    (hrooted : tree ≠ .nil) (hroots : ∀ tag ∈ tree.roots, tag.name ∈ rules.roots) :
    rules.Admits (Reading.ofBytes bytes) where
  complete := h.complete
  rooted := by
    rw [h.tags]
    cases tree with
    | nil => exact absurd rfl hrooted
    | node tag inner rest => exact ⟨tag, List.mem_cons_self, h.nested.1⟩
  roots tag htag hdepth := by
    rw [h.tags] at htag
    exact hroots tag (mem_roots h.nested tag htag hdepth)

end TagForest

/-- A tag without its place in the document. -/
def Tag.unplaced (tag : Tag) : Tag :=
  { tag with position := 0, depth := 0 }

namespace Tag

variable (tag : Tag) (attributeName : String)

/-- The place of a tag does not matter to its name. -/
@[simp]
theorem unplaced_name : tag.unplaced.name = tag.name := rfl

/-- The place of a tag does not matter to whether its attributes can be read. -/
@[simp]
theorem unplaced_malformed : tag.unplaced.malformed = tag.malformed := rfl

/-- The place of a tag does not matter to an optional attribute. -/
@[simp]
theorem unplaced_optional : tag.unplaced.optional attributeName = tag.optional attributeName := rfl

/-- The place of a tag does not matter to a required attribute. -/
@[simp]
theorem unplaced_required : tag.unplaced.required attributeName = tag.required attributeName := by
  simp only [required, unplaced_optional, unplaced_name]

/-- The place of a tag does not matter to an attribute in seconds. -/
@[simp]
theorem unplaced_seconds : tag.unplaced.seconds attributeName = tag.seconds attributeName := by
  simp only [seconds, number, unplaced_optional, unplaced_malformed]

/-- The place of a tag does not matter to a flag. -/
@[simp]
theorem unplaced_flag : tag.unplaced.flag attributeName = tag.flag attributeName := by
  simp only [flag, unplaced_optional, unplaced_malformed]

end Tag

/-- A tree without the places of its tags. -/
def TagForest.unplaced : TagForest → TagForest
  | .nil => .nil
  | .node tag inner rest => .node tag.unplaced inner.unplaced rest.unplaced

/-- A report format that groups tests into assemblies: which tags stand for tests, the short name of the
assembly that a tag opens, the name and record that a test tag has, and whether its attributes can be
read. -/
structure AssemblyFormat where
  rules : Rules (Option String)
  testName : String
  assembly? : Tag → Option String
  record? : Tag → Option (String × TestRecord)
  Valid : Tag → Prop

namespace AssemblyFormat

variable {format : AssemblyFormat} {map : MethodMap} {tree : TagForest} {tags : List Tag}

/-- The record of a test tag inside of an assembly, and its key. Other tags have none. -/
def charge? (format : AssemblyFormat) (map : MethodMap) (around : Option String) (tag : Tag) :
    Option (ResultKey × TestRecord) :=
  if tag.name = format.testName then
    (format.record? tag).map fun test => ((attribution map (qualifiedName around test.1)).1, test.2)
  else none

/-- The records of the tests of a tree, each under the assembly around it. -/
def charges (format : AssemblyFormat) (map : MethodMap) (around : Option String) :
    TagForest → List (ResultKey × TestRecord)
  | .nil => []
  | .node tag inner rest =>
    (format.charge? map around tag).toList ++
      (format.charges map ((format.assembly? tag).or around) inner ++ format.charges map around rest)

/-- The records of test tags one after the other, each under the assembly read last. -/
def running (format : AssemblyFormat) (map : MethodMap) (last : Option String) :
    List Tag → List (ResultKey × TestRecord)
  | [] => []
  | tag :: tags =>
    (format.charge? map last tag).toList ++ format.running map ((format.assembly? tag).or last) tags

/-- No assembly is nested in another one, and every test lies inside of an assembly. -/
def Arranged (format : AssemblyFormat) (inside : Bool) : TagForest → Prop
  | .nil => True
  | .node tag inner rest =>
    ((format.assembly? tag).isSome → inside = false) ∧ (tag.name = format.testName → inside = true) ∧
      format.Arranged (inside || (format.assembly? tag).isSome) inner ∧ format.Arranged inside rest

instance decidableArranged (format : AssemblyFormat) :
    ∀ (inside : Bool) (tree : TagForest), Decidable (format.Arranged inside tree)
  | _, .nil => .isTrue trivial
  | inside, .node tag inner rest =>
    letI := decidableArranged format (inside || (format.assembly? tag).isSome) inner
    letI := decidableArranged format inside rest
    inferInstanceAs (Decidable (_ ∧ _ ∧ _ ∧ _))

/-- The outermost assemblies, each with all that is inside it. -/
def assemblies (format : AssemblyFormat) : TagForest → List TagForest
  | .nil => []
  | .node tag inner rest =>
    (if (format.assembly? tag).isSome then [.node tag inner .nil] else format.assemblies inner) ++
      format.assemblies rest

/-- A tree of a document that can be parsed: it has an outermost element and all of them may be, its
assemblies and tests are arranged, and its attributes are valid. -/
structure Accepts (format : AssemblyFormat) (tree : TagForest) : Prop where
  rooted : tree ≠ .nil
  roots : ∀ tag ∈ tree.roots, tag.name ∈ format.rules.roots
  arranged : format.Arranged false tree
  valid : ∀ tag ∈ tree.tags, format.Valid tag

instance [DecidablePred format.Valid] (tree : TagForest) : Decidable (format.Accepts tree) :=
  decidable_of_iff (tree ≠ .nil ∧ (∀ tag ∈ tree.roots, tag.name ∈ format.rules.roots) ∧
      format.Arranged false tree ∧ ∀ tag ∈ tree.tags, format.Valid tag)
    ⟨fun ⟨rooted, roots, arranged, valid⟩ => ⟨rooted, roots, arranged, valid⟩,
      fun h => ⟨h.rooted, h.roots, h.arranged, h.valid⟩⟩

/-- What the rules of a format do with single tags is what the format says of them. -/
structure Lawful (format : AssemblyFormat) (dialect : Dialect) : Prop where
  account : ∀ reading, dialect.account reading = (format.rules.apply none reading).account
  tallies : ∀ map, format.rules.Tallies map format.testName (lastGiven format.assembly?)
    fun before tag entry => format.charge? map (lastGiven format.assembly? before) tag = some entry
  accepts : ∀ tag handler, format.Valid tag → format.rules.handler? tag.name = some handler →
    ∀ state, ∃ result, handler tag state = .ok result
  assembly_unplaced : ∀ tag : Tag, format.assembly? tag.unplaced = format.assembly? tag
  record_unplaced : ∀ tag : Tag, format.record? tag.unplaced = format.record? tag

/-- One record for each test tag, under the assembly read before it, is a run over the tags. -/
theorem running_of_one_per_tag {before : List Tag} {entries : List (ResultKey × TestRecord)}
    (h : OnePerTag format.testName
      (fun before tag entry =>
        format.charge? map (lastGiven format.assembly? before) tag = some entry) before tags entries) :
    entries = format.running map (lastGiven format.assembly? before) tags := by
  induction h with
  | nil => rfl
  | other hname _ ih =>
      rw [last_given_append] at ih
      rw [running, charge?, if_neg hname, ← ih]
      rfl
  | named _ hentry _ ih =>
      rw [last_given_append] at ih
      rw [running, hentry, ← ih]
      rfl

/-- Running over the tags of a tree is going through the tree, and behind a tree inside of an assembly
that assembly is still the one read last. -/
theorem running_tree {inside : Bool} (h : format.Arranged inside tree) {last around : Option String}
    (haround : inside = true → last = around) (others : List Tag) :
    ∃ behind, format.running map last (tree.tags ++ others) =
        format.charges map around tree ++ format.running map behind others ∧
      (inside = true → behind = last) := by
  induction tree generalizing inside last around others with
  | nil => exact ⟨last, rfl, fun _ => rfl⟩
  | node tag inner rest hinner hrest =>
      obtain ⟨hassembly, htest, hin, hre⟩ := h
      -- Only inside of an assembly does the assembly matter, and there no tag opens another one.
      have hcharge : format.charge? map last tag = format.charge? map around tag := by
        by_cases hname : tag.name = format.testName
        · rw [haround (htest hname)]
        · rw [charge?, charge?, if_neg hname, if_neg hname]
      have hinside : (inside || (format.assembly? tag).isSome) = true →
          (format.assembly? tag).or last = (format.assembly? tag).or around := by
        intro hor
        cases hopens : format.assembly? tag with
        | some name => rfl
        | none =>
            rw [hopens, Option.isSome_none, Bool.or_false] at hor
            rw [haround hor]
      obtain ⟨middle, hinnerCharges, hmiddle⟩ := hinner hin hinside (rest.tags ++ others)
      have hsame : inside = true → middle = last := by
        intro hin
        have hnone : format.assembly? tag = none := by
          cases hopens : format.assembly? tag with
          | none => rfl
          | some name => exact absurd (hassembly (by simp [hopens])) (by simp [hin])
        rw [hmiddle (by simp [hin]), hnone, Option.none_or]
      obtain ⟨behind, hrestCharges, hbehind⟩ :=
        hrest hre (fun hin => (hsame hin).trans (haround hin)) others
      refine ⟨behind, ?_, fun hin => (hbehind hin).trans (hsame hin)⟩
      rw [TagForest.tags, List.cons_append, List.append_assoc, running, hcharge, hinnerCharges,
        hrestCharges, charges, List.append_assoc, List.append_assoc]

/-- All tests of a tree are tests of its assemblies. -/
theorem charges_eq_flatten (h : format.Arranged false tree) :
    format.charges map none tree = (format.assemblies tree).flatMap (format.charges map none) := by
  induction tree with
  | nil => rfl
  | node tag inner rest hinner hrest =>
      obtain ⟨-, htest, hin, hre⟩ := h
      have hcharge : format.charge? map none tag = none :=
        if_neg fun hname => absurd (htest hname) (by decide)
      rw [charges, assemblies, List.flatMap_append, ← hrest hre, hcharge, Option.toList_none,
        List.nil_append]
      congr 1
      cases hopens : format.assembly? tag with
      | none =>
          rw [hopens] at hin
          exact hinner hin
      | some name => simp [charges, hcharge, hopens]

/-- The places of tags do not matter. -/
theorem charges_unplaced {dialect : Dialect} (h : format.Lawful dialect) (around : Option String)
    (tree : TagForest) : format.charges map around tree.unplaced = format.charges map around tree := by
  induction tree generalizing around with
  | nil => rfl
  | node tag inner rest hinner hrest =>
      have hcharge : format.charge? map around tag.unplaced = format.charge? map around tag := by
        unfold charge?
        rw [h.record_unplaced]
        rfl
      rw [TagForest.unplaced, charges, charges, hinner, hrest, hcharge, h.assembly_unplaced]

/-- Parsing a document adds what its tree amounts to. -/
theorem Lawful.parse {dialect : Dialect} (h : format.Lawful dialect) {bytes : List UInt8}
    (hrendered : tree.RenderedBy bytes) (haccepts : format.Accepts tree) (path : Path) (table : Table) :
    let parsed := dialect.parse path bytes map table
    parsed.failure = none ∧ parsed.table = table.addEntries (format.charges map none tree) := by
  unfold Dialect.parse
  rw [h.account]
  rcases Rules.apply_admitted (hrendered.admits haccepts.rooted haccepts.roots) none with
    ⟨hfault, hsteps⟩ | ⟨done, tag, others, -, state, handler, refusal, htags, -, hhandler, hrefused, -⟩
  · change format.rules.Steps (lastGiven format.assembly? []) _ _ _ at hsteps
    have hentries := running_of_one_per_tag (hsteps.tally (h.tallies map))
    obtain ⟨behind, hcharges, -⟩ :
        ∃ behind, format.running map none (tree.tags ++ []) =
          format.charges map none tree ++ format.running map behind [] ∧ _ :=
      running_tree haccepts.arranged (by simp) []
    rw [List.append_nil, running, List.append_nil, ← hrendered.tags] at hcharges
    exact ⟨Option.map_eq_none_iff.mpr hfault, congrArg table.addEntries (hentries.trans hcharges)⟩
  · have hvalid := haccepts.valid tag (by rw [← hrendered.tags, htags]; simp)
    obtain ⟨result, hresult⟩ := h.accepts tag handler hvalid hhandler state
    rw [hrefused] at hresult
    cases hresult

end AssemblyFormat

/-- Rules that give each tag one entry also give it whatever follows from that. -/
theorem Rules.Tallies.imp {σ : Type} {rules : Rules σ} {map : MethodMap} {name : String}
    {stateBehind : List Tag → σ} {gives gives' : List Tag → Tag → ResultKey × TestRecord → Prop}
    (h : rules.Tallies map name stateBehind gives)
    (hgives : ∀ before tag entry, tag.name = name → gives before tag entry → gives' before tag entry) :
    rules.Tallies map name stateBehind gives' where
  ignored := h.ignored
  handled before tag handler after effects hhandler hstep := by
    obtain ⟨hafter, hentries⟩ := h.handled before tag handler after effects hhandler hstep
    refine ⟨hafter, hentries.imp_left ?_⟩
    rintro ⟨hname, entry, hentry, hgiven⟩
    exact ⟨hname, entry, hentry, hgives before tag entry hname hgiven⟩

namespace XUnit

/-- The name and record of a test tag whose attributes can be read. -/
def record? (tag : Tag) : Option (String × TestRecord) := do
  let word ← (tag.required "result").toOption
  let outcome ← outcome? word
  let duration ← (tag.seconds "time").toOption
  let name ← (tag.required "name").toOption
  pure (name, ⟨outcome, duration⟩)

/-- The attributes of assemblies and tests can be read. -/
def ValidTag (tag : Tag) : Prop :=
  (tag.name = "assembly" → (tag.required "name").isOk) ∧ (tag.name = "test" → (record? tag).isSome)

/-- Assemblies and tests in this format. -/
def format : AssemblyFormat :=
  ⟨rules, "test", assembly?, record?, ValidTag⟩

instance : DecidablePred format.Valid :=
  fun _ => inferInstanceAs (Decidable (_ ∧ _))

/-- The attributes that make a test tag of xUnit a record with a name. -/
theorem record_eq_some_iff {tag : Tag} {name : String} {record : TestRecord} :
    record? tag = some (name, record) ↔
      ∃ word, tag.required "result" = .ok word ∧ outcome? word = some record.outcome ∧
        tag.seconds "time" = .ok record.duration ∧ tag.required "name" = .ok name := by
  simp only [record?, bind, Option.bind_eq_some_iff, to_option_eq_some_iff, pure, Option.some.injEq,
    Prod.mk.injEq]
  constructor
  · rintro ⟨word, hword, outcome, houtcome, duration, hduration, found, hname, rfl, rfl⟩
    exact ⟨word, hword, houtcome, hduration, hname⟩
  · rintro ⟨word, hword, houtcome, hduration, hname⟩
    exact ⟨word, hword, _, houtcome, _, hduration, _, hname, rfl, rfl⟩

/-- The rules of xUnit charge what the tree of a report tells. -/
theorem lawful : format.Lawful .xunit where
  account _ := rfl
  tallies map := by
    refine (XUnit.tallies map).imp fun before tag entry hname hgives => ?_
    obtain ⟨word, name, hword, houtcome, hduration, hrequired, hkey⟩ := hgives
    have hrecord : record? tag = some (name, entry.2) :=
      record_eq_some_iff.mpr ⟨word, hword, houtcome, hduration, hrequired⟩
    simp only [AssemblyFormat.charge?, format, hname, hrecord, if_true, Option.map_some]
    exact congrArg some (Prod.ext hkey.symm rfl)
  accepts tag handler hvalid hhandler state := by
    obtain ⟨hassembly, htest⟩ := hvalid
    have hmem := Rules.handler_mem hhandler
    simp only [format, rules, List.mem_cons, Prod.mk.injEq, List.not_mem_nil, or_false] at hmem
    rcases hmem with ⟨hname, rfl⟩ | ⟨hname, rfl⟩
    · obtain ⟨name, hrequired⟩ := is_ok_iff.mp (hassembly hname)
      exact ⟨_, Handler.reading_ok_iff.mpr (except_bind_ok.mpr ⟨name, hrequired, rfl⟩)⟩
    · obtain ⟨⟨name, record⟩, hrecord⟩ := Option.isSome_iff_exists.mp (htest hname)
      obtain ⟨word, hword, houtcome, hduration, hrequired⟩ := record_eq_some_iff.mp hrecord
      refine Handler.reading_accepts_iff.mpr ?_
      simp only [hword, hduration, hrequired, houtcome, bind, Except.bind]
      exact ⟨_, rfl⟩
  assembly_unplaced tag := by simp [format, assembly?]
  record_unplaced tag := by simp [format, record?]

end XUnit

namespace NUnit

/-- The name and record of a test case whose attributes can be read. -/
def record? (tag : Tag) : Option (String × TestRecord) := do
  let name ← (caseName tag).toOption
  let word ← (tag.required "result").toOption
  let label ← (tag.optional "label").toOption
  let executed ← (tag.flag "executed").toOption
  let duration ← (caseDuration tag).toOption
  let outcome ← (if executed = some false then some .skipped else outcome? word label)
  pure (name, ⟨outcome, duration⟩)

/-- The attributes of suites and test cases can be read. A suite needs a name if it stands for an
assembly. -/
def ValidTag (tag : Tag) : Prop :=
  (tag.name = "test-suite" → (tag.optional "type").isOk ∧
    ((tag.optional "type").toOption = some (some "Assembly") → (tag.required "name").isOk)) ∧
  (tag.name = "test-case" → (record? tag).isSome)

/-- Assemblies and tests in this format. -/
def format : AssemblyFormat :=
  ⟨rules, "test-case", assembly?, record?, ValidTag⟩

instance : DecidablePred format.Valid :=
  fun _ => inferInstanceAs (Decidable (_ ∧ _))

/-- The attributes that make a test case of NUnit a record with a name. -/
theorem record_eq_some_iff {tag : Tag} {name : String} {record : TestRecord} :
    record? tag = some (name, record) ↔
      ∃ word label executed, caseName tag = .ok name ∧ tag.required "result" = .ok word ∧
        tag.optional "label" = .ok label ∧ tag.flag "executed" = .ok executed ∧
        (if executed = some false then some .skipped else outcome? word label) =
          some record.outcome ∧ caseDuration tag = .ok record.duration := by
  simp only [record?, bind, Option.bind_eq_some_iff, to_option_eq_some_iff, pure, Option.some.injEq,
    Prod.mk.injEq]
  constructor
  · rintro ⟨found, hname, word, hword, label, hlabel, executed, hexecuted, duration, hduration, outcome,
      houtcome, rfl, rfl⟩
    exact ⟨word, label, executed, hname, hword, hlabel, hexecuted, houtcome, hduration⟩
  · rintro ⟨word, label, executed, hname, hword, hlabel, hexecuted, houtcome, hduration⟩
    exact ⟨_, hname, word, hword, label, hlabel, executed, hexecuted, _, hduration, _, houtcome, rfl, rfl⟩

/-- The rules of NUnit charge what the tree of a report tells. -/
theorem lawful : format.Lawful .nunit where
  account _ := rfl
  tallies map := by
    refine (NUnit.tallies map).imp fun before tag entry hname hgives => ?_
    obtain ⟨name, word, label, executed, hcase, hword, hlabel, hexecuted, houtcome, hduration, hkey⟩ :=
      hgives
    have hrecord : record? tag = some (name, entry.2) := record_eq_some_iff.mpr
      ⟨word, label, executed, hcase, hword, hlabel, hexecuted, houtcome, hduration⟩
    simp only [AssemblyFormat.charge?, format, hname, hrecord, if_true, Option.map_some]
    exact congrArg some (Prod.ext hkey.symm rfl)
  accepts tag handler hvalid hhandler state := by
    obtain ⟨hsuite, hcase⟩ := hvalid
    have hmem := Rules.handler_mem hhandler
    simp only [format, rules, List.mem_cons, Prod.mk.injEq, List.not_mem_nil, or_false] at hmem
    rcases hmem with ⟨hname, rfl⟩ | ⟨hname, rfl⟩
    · obtain ⟨hkind, hassembly⟩ := hsuite hname
      obtain ⟨kind, hkind⟩ := is_ok_iff.mp hkind
      refine Handler.reading_accepts_iff.mpr ?_
      simp only [hkind, bind, Except.bind]
      by_cases hopens : kind = some "Assembly"
      · obtain ⟨name, hrequired⟩ := is_ok_iff.mp (hassembly (by rw [hkind, hopens]; rfl))
        simp only [hopens, if_true, hrequired]
        exact ⟨_, rfl⟩
      · simp only [hopens, if_false]
        exact ⟨_, rfl⟩
    · obtain ⟨⟨name, record⟩, hrecord⟩ := Option.isSome_iff_exists.mp (hcase hname)
      obtain ⟨word, label, executed, hname, hword, hlabel, hexecuted, houtcome, hduration⟩ :=
        record_eq_some_iff.mp hrecord
      refine Handler.reading_accepts_iff.mpr ?_
      simp only [hname, hword, hlabel, hexecuted, hduration, houtcome, bind, Except.bind]
      exact ⟨_, rfl⟩
  assembly_unplaced tag := by simp [format, assembly?]
  record_unplaced tag := by simp [format, record?, caseName, caseDuration]

end NUnit

/-- The format of a dialect that groups tests into assemblies. -/
def Dialect.assemblyFormat? : Dialect → Option AssemblyFormat
  | .xunit => some XUnit.format
  | .nunit => some NUnit.format
  | .vstest => none

/-- A dialect with a tree format charges what the tree of a report tells. -/
theorem Dialect.lawful {dialect : Dialect} {format : AssemblyFormat}
    (h : dialect.assemblyFormat? = some format) : format.Lawful dialect := by
  cases dialect with
  | xunit =>
      obtain rfl : XUnit.format = format := Option.some.inj h
      exact XUnit.lawful
  | nunit =>
      obtain rfl : NUnit.format = format := Option.some.inj h
      exact NUnit.lawful
  | vstest => cases h

/-- Merging the table of one list of records after the other adds all of them. -/
theorem Table.add_entries_flatMap {α : Type} (entries : α → List (ResultKey × TestRecord))
    (items : List α) (table : Table) :
    table.addEntries (items.flatMap entries) =
      items.foldl (fun sum item => sum.merge (empty.addEntries (entries item))) table := by
  induction items generalizing table with
  | nil => rfl
  | cons item items ih =>
      rw [List.flatMap_cons, add_entries_append, ih, add_entries_eq_merge table, List.foldl_cons]

/-- Take a document of a tree in which no assembly is nested in another one, every test lies inside of an
assembly, and all that is read is valid. Parsing it adds each test under the assembly around it, which is
to merge the tables of its assemblies. The tree of a written document is what was written. A document with
the same assemblies in another order is parsed to the same table, up to the spelling of paths. -/
theorem parse_follows_tree {dialect : Dialect} {format : AssemblyFormat}
    (hformat : dialect.assemblyFormat? = some format) {tree : TagForest} {bytes : List UInt8}
    (hrendered : tree.RenderedBy bytes) (haccepts : format.Accepts tree) (path : Path)
    (map : MethodMap) (table : Table) :
    let parsed := dialect.parse path bytes map table
    parsed.failure = none ∧ parsed.table = table.addEntries (format.charges map none tree) ∧
      parsed.table = (format.assemblies tree).foldl (fun sum assembly =>
        sum.merge (Table.empty.addEntries (format.charges map none assembly))) table ∧
      (∀ written : Xml.Forest, bytes = Text.Utf8.encode written.document → tree.Shows 0 written) ∧
      ∀ (otherPath : Path) {other : TagForest} {others : List UInt8}, other.RenderedBy others →
        format.Accepts other →
        ((format.assemblies other).map TagForest.unplaced).Perm
          ((format.assemblies tree).map TagForest.unplaced) →
        let reordered := dialect.parse otherPath others map table
        reordered.failure = none ∧ reordered.table.agrees parsed.table = true := by
  intro parsed
  have hlawful := Dialect.lawful hformat
  obtain ⟨hnone, htable⟩ := hlawful.parse hrendered haccepts path table
  refine ⟨hnone, htable, ?_, ?_, ?_⟩
  · rw [← Table.add_entries_flatMap, ← AssemblyFormat.charges_eq_flatten haccepts.arranged]
    exact htable
  · rintro written rfl
    exact hrendered.shows
  · intro otherPath other others hother haccepted hperm reordered
    obtain ⟨hfailure, hreordered⟩ := hlawful.parse hother haccepted otherPath table
    refine ⟨hfailure, ?_⟩
    -- The places of the tags differ, and nothing else that is charged.
    have hcharges : (format.charges map none other).Perm (format.charges map none tree) := by
      have hmoved := hperm.flatMap_right (format.charges map none)
      simp only [List.flatMap_map, AssemblyFormat.charges_unplaced hlawful] at hmoved
      rwa [← AssemblyFormat.charges_eq_flatten haccepted.arranged,
        ← AssemblyFormat.charges_eq_flatten haccepts.arranged] at hmoved
    rw [hreordered, htable]
    exact Table.add_entries_agrees (Table.agrees_refl table) hcharges

namespace NUnit

/-- A report of two assemblies, one of them inside of a project. -/
def nestedReport : List UInt8 :=
  ["<test-run>", "<test-suite type='Project'>", "<test-suite type='Assembly' name='b/One.dll'>",
    "<test-case fullname='m(1)' result='Passed' />", "</test-suite>", "</test-suite>",
    "<test-suite type='Assembly' name='Two.dll'>", "<test-case name='m' result='Failure' />",
    "</test-suite>", "</test-run>"].flatMap Text.Utf8.encode

/-- The same assemblies in the other order and in other places. -/
def movedReport : List UInt8 :=
  ["<test-run>", "<test-suite type='Assembly' name='Two.dll'>",
    "<test-case name='m' result='Failure' />", "</test-suite>",
    "<test-suite type='Assembly' name='b/One.dll'>",
    "<test-case fullname='m(1)' result='Passed' />", "</test-suite>", "<settings/>",
    "</test-run>"].flatMap Text.Utf8.encode

/-- Both reports can be read to their end, and their trees are in order for the dialect. -/
theorem reports_accepted :
    (Reading.ofBytes nestedReport).ending = .ok () ∧
      format.Accepts (Reading.ofBytes nestedReport).tree ∧
      (Reading.ofBytes movedReport).ending = .ok () ∧
      format.Accepts (Reading.ofBytes movedReport).tree := by
  decide +kernel

end NUnit

/-- A report whose assemblies stand in another order and in other places is charged alike. -/
theorem moved_assemblies_charged_alike :
    let map := MethodMap.ofList [("One.m", ⟨"One.cs"⟩), ("Two.m", ⟨"Two.cs"⟩)]
    let tree := (Reading.ofBytes NUnit.nestedReport).tree
    let other := (Reading.ofBytes NUnit.movedReport).tree
    let parsed := Dialect.nunit.parse ⟨"a.xml"⟩ NUnit.nestedReport map .empty
    let moved := Dialect.nunit.parse ⟨"b.xml"⟩ NUnit.movedReport map .empty
    tree.RenderedBy NUnit.nestedReport ∧ NUnit.format.Accepts tree ∧
      other.RenderedBy NUnit.movedReport ∧ NUnit.format.Accepts other ∧
      ((NUnit.format.assemblies other).map TagForest.unplaced).Perm
        ((NUnit.format.assemblies tree).map TagForest.unplaced) ∧
      parsed.failure = none ∧
      parsed.table = Table.empty.addEntries (NUnit.format.charges map none tree) ∧
      NUnit.format.charges map none tree =
        [(.file ⟨"One.cs"⟩, ⟨.passed, none⟩), (.file ⟨"Two.cs"⟩, ⟨.failed, none⟩)] ∧
      moved.failure = none ∧ moved.table.agrees parsed.table = true := by
  intro map tree other parsed moved
  obtain ⟨hcomplete, haccepts, hending, haccepted⟩ := NUnit.reports_accepted
  have hrendered := TagForest.rendered_of_complete hcomplete
  have hother := TagForest.rendered_of_complete hending
  have hread : (NUnit.format.assemblies other).map TagForest.unplaced =
        ((NUnit.format.assemblies tree).map TagForest.unplaced).reverse ∧
      NUnit.format.charges map none tree =
        [(.file ⟨"One.cs"⟩, ⟨.passed, none⟩), (.file ⟨"Two.cs"⟩, ⟨.failed, none⟩)] := by
    decide +kernel
  obtain ⟨hreverse, hcharges⟩ := hread
  have hperm : ((NUnit.format.assemblies other).map TagForest.unplaced).Perm
      ((NUnit.format.assemblies tree).map TagForest.unplaced) := by
    rw [hreverse]
    exact List.reverse_perm _
  obtain ⟨hnone, htable, -, -, hmoved⟩ :=
    @parse_follows_tree .nunit NUnit.format rfl _ _ hrendered haccepts ⟨"a.xml"⟩ map .empty
  obtain ⟨hfailure, hagrees⟩ := hmoved ⟨"b.xml"⟩ hother haccepted hperm
  exact ⟨hrendered, haccepts, hother, haccepted, hperm, hnone, htable, hcharges, hfailure, hagrees⟩

end TestMeasures
