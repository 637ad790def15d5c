import TestMeasures.Proofs.DocumentTree
import TestMeasures.Proofs.ResultPlacement

/-!
# Definitions that lie inside of their tests

A `TestMethod` defines the test whose `UnitTest` was read last, wherever that one ended. It therefore lies
inside of its test exactly in documents that are sealed: behind a `UnitTest` without any definition inside,
the next `TestMethod` comes after another `UnitTest` (`VSTest.sealed_iff`).
`definitions_enclosed_of_sealed` is what follows for the results of such a document.
`stray_method_defines_test` is a document that is not sealed, in which a method outside of every test gives
a test its name.
-/

namespace TestMeasures

namespace VSTest

variable {tags : List Tag} {tree : TagForest} {test method : Tag} {id name : String}

/-- What stands behind a test without definitions inside it begins with another test, as far as
definitions go. -/
def Sealed (tree : TagForest) : Prop :=
  ∀ site ∈ tree.sites [], site.tag.name = "UnitTest" → definitionTags site.inside = [] →
    ∀ next ∈ (definitionTags site.behind).head?, next.name ≠ "TestMethod"

instance (tree : TagForest) : Decidable (Sealed tree) :=
  inferInstanceAs (Decidable (∀ site ∈ tree.sites [], _))

/-- A method inside of a test of an id gives it a name. -/
def NamedInside (tree : TagForest) (id name : String) : Prop :=
  ∃ test method : Tag, test.name = "UnitTest" ∧ method.name = "TestMethod" ∧
    tree.Encloses test method ∧ Defines (test, method) (id, name)

/-- No test of an id has a method inside it. -/
def NeverNamedInside (tree : TagForest) (id : String) : Prop :=
  ∀ site ∈ tree.sites [], site.tag.name = "UnitTest" → site.tag.required "id" = .ok id →
    ∀ method ∈ site.inside, method.name ≠ "TestMethod"

instance (tree : TagForest) (id : String) : Decidable (NeverNamedInside tree id) :=
  inferInstanceAs (Decidable (∀ site ∈ tree.sites [], _))

/-- A test is defined by the method right behind it. -/
theorem mem_test_methods_iff :
    (test, method) ∈ testMethods tags ↔
      (∃ before behind, tags = before ++ test :: method :: behind) ∧ test.name = "UnitTest" ∧
        method.name = "TestMethod" := by
  induction tags using testMethods.induct with
  | case1 first second rest hnames ih =>
      rw [test_methods_of_pair hnames.1 hnames.2, List.mem_cons, ih]
      constructor
      · rintro (heq | ⟨⟨before, behind, rfl⟩, hrest⟩)
        · obtain ⟨rfl, rfl⟩ := Prod.mk.inj heq
          exact ⟨⟨[], rest, rfl⟩, hnames⟩
        · exact ⟨⟨first :: second :: before, behind, rfl⟩, hrest⟩
      · rintro ⟨⟨before, behind, heq⟩, hrest⟩
        obtain _ | ⟨head, before⟩ := before
        · obtain ⟨rfl, rfl, -⟩ : first = test ∧ second = method ∧ rest = behind := by simpa using heq
          exact .inl rfl
        · obtain _ | ⟨next, before⟩ := before
          · -- The second tag is a method, so it cannot be the test of another one.
            obtain ⟨-, rfl, -⟩ : first = head ∧ second = test ∧ rest = method :: behind := by
              simpa using heq
            exact absurd (hnames.2.symm.trans hrest.1) (by decide)
          · obtain ⟨-, -, hsplit⟩ : first = head ∧ second = next ∧
                rest = before ++ test :: method :: behind := by simpa using heq
            exact .inr ⟨⟨before, behind, hsplit⟩, hrest⟩
  | case2 first second rest hnames ih =>
      rw [testMethods, if_neg hnames, ih]
      constructor
      · rintro ⟨⟨before, behind, heq⟩, hrest⟩
        exact ⟨⟨first :: before, behind, by simp [heq]⟩, hrest⟩
      · rintro ⟨⟨before, behind, heq⟩, hrest⟩
        obtain _ | ⟨head, before⟩ := before
        · obtain ⟨rfl, rfl, -⟩ : first = test ∧ second = method ∧ rest = behind := by simpa using heq
          exact absurd hrest hnames
        · obtain ⟨-, hsplit⟩ : first = head ∧
              second :: rest = before ++ test :: method :: behind := by simpa using heq
          exact ⟨⟨before, behind, hsplit⟩, hrest⟩
  | case3 tags hshort =>
      have hnone : testMethods tags = [] := by
        unfold testMethods
        split
        · exact absurd rfl (hshort _ _ _)
        · rfl
      rw [hnone]
      refine ⟨fun h => absurd h List.not_mem_nil, ?_⟩
      rintro ⟨⟨before, behind, rfl⟩, -⟩
      obtain _ | ⟨head, _ | ⟨next, before⟩⟩ := before
      · exact absurd rfl (hshort _ _ _)
      · exact absurd rfl (hshort _ _ _)
      · exact absurd rfl (hshort _ _ _)

/-- In a document, a test is defined by the next method with no definition tag between the two. -/
theorem mem_defined_tests_iff :
    (test, method) ∈ testMethods (definitionTags tags) ↔
      (∃ before between behind, tags = before ++ test :: (between ++ method :: behind) ∧
        definitionTags between = []) ∧ test.name = "UnitTest" ∧ method.name = "TestMethod" := by
  rw [mem_test_methods_iff]
  refine and_congr_left fun hnames => ⟨?_, ?_⟩
  · rintro ⟨before, behind, heq⟩
    obtain ⟨front, back, rfl, -, hback⟩ := List.filter_eq_append_iff.mp heq
    obtain ⟨skipped, more, rfl, hskipped, -, hmore⟩ := List.filter_eq_cons_iff.mp hback
    obtain ⟨between, rest, rfl, hbetween, -, -⟩ := List.filter_eq_cons_iff.mp hmore
    exact ⟨front ++ skipped, between, rest, by simp, List.filter_eq_nil_iff.mpr hbetween⟩
  · rintro ⟨before, between, behind, rfl, hbetween⟩
    have htest : definitionTags (test :: (between ++ method :: behind)) =
        test :: definitionTags (between ++ method :: behind) :=
      List.filter_cons_of_pos (by simp [hnames.1])
    have hmethod : definitionTags (method :: behind) = method :: definitionTags behind :=
      List.filter_cons_of_pos (by simp [hnames.2])
    exact ⟨definitionTags before, definitionTags behind, by
      rw [definition_tags_append, htest, definition_tags_append, hbetween, List.nil_append, hmethod]⟩

/-- The methods that define tests all lie inside of them exactly in sealed documents. -/
theorem sealed_iff (hnodup : tree.tags.Nodup) :
    Sealed tree ↔
      ∀ test ∈ testMethods (definitionTags tree.tags), tree.Encloses test.1 test.2 := by
  constructor
  · rintro hsealed ⟨test, method⟩ hmem
    obtain ⟨⟨before, between, behind, hsplit, hbetween⟩, htest, hmethod⟩ :=
      mem_defined_tests_iff.mp hmem
    obtain ⟨site, hsite, rfl⟩ : ∃ site ∈ tree.sites [], site.tag = test := by
      rw [← List.mem_map, TagForest.sites_tags, hsplit]
      simp
    obtain ⟨front, hfront⟩ := TagForest.sites_split hsite
    rw [List.append_nil] at hfront
    -- The test stands in one place, so that the two ways to split the document are the same.
    have hbehind : between ++ method :: behind = site.inside ++ site.behind := by
      have hdistinct := hnodup
      rw [hsplit, List.nodup_append, List.nodup_cons] at hdistinct
      have hbefore : site.tag ∉ before := fun hin =>
        hdistinct.2.2 site.tag hin site.tag List.mem_cons_self rfl
      exact ((List.append_cons_inj_of_notMem hbefore hdistinct.2.1.1).mp
        (hsplit.symm.trans hfront)).2.2
    have hnext : definitionTags (method :: behind) = method :: definitionTags behind :=
      List.filter_cons_of_pos (by simp [hmethod])
    rcases List.append_eq_append_iff.mp hbehind with ⟨more, hinside, hmore⟩ | ⟨more, hmore, hrest⟩
    · obtain _ | ⟨next, more⟩ := more
      · have hhead : definitionTags site.behind = method :: definitionTags behind := by
          rw [← hnext, hmore, List.nil_append]
        exact absurd hmethod (hsealed site hsite htest (by simpa [hinside] using hbetween) method
          (by simp [hhead]))
      · obtain rfl : method = next := (List.cons.inj hmore).1
        exact ⟨site, hsite, rfl, by simp [hinside]⟩
    · rw [hmore, definition_tags_append, List.append_eq_nil_iff] at hbetween
      have hhead : definitionTags site.behind = method :: definitionTags behind := by
        rw [hrest, definition_tags_append, hbetween.2, List.nil_append, hnext]
      exact absurd hmethod (hsealed site hsite htest hbetween.1 method (by simp [hhead]))
  · intro henclosed site hsite htest hinside next hnext hmethod
    obtain ⟨more, hmore⟩ := List.head?_eq_some_iff.mp hnext
    obtain ⟨between, behind, hbehind, hbetween, -, -⟩ := List.filter_eq_cons_iff.mp hmore
    obtain ⟨before, hsplit⟩ := TagForest.sites_split hsite
    rw [List.append_nil, hbehind, ← List.append_assoc] at hsplit
    have hnone : definitionTags (site.inside ++ between) = [] := by
      rw [definition_tags_append, hinside, List.nil_append]
      exact List.filter_eq_nil_iff.mpr hbetween
    obtain ⟨other, hother, htag, hin⟩ := henclosed (site.tag, next)
      (mem_defined_tests_iff.mpr ⟨⟨before, _, behind, hsplit, hnone⟩, htest, hmethod⟩)
    obtain rfl := TagForest.site_unique hnodup hother hsite htag
    have hmem : next ∈ definitionTags other.inside := mem_definition_tags hin (.inr hmethod)
    rw [hinside] at hmem
    cases hmem

/-- What defines a test gives it a name from inside, if the methods of all tests lie inside of them. -/
theorem named_inside_of_defines
    (henclosed : ∀ test ∈ testMethods (definitionTags tree.tags), tree.Encloses test.1 test.2)
    {test : Tag × Tag} (htest : test ∈ testMethods (definitionTags tree.tags))
    (hdefines : Defines test (id, name)) : NamedInside tree id name := by
  obtain ⟨-, hname, hmethod⟩ := mem_defined_tests_iff.mp htest
  exact ⟨test.1, test.2, hname, hmethod, henclosed test htest, hdefines⟩

/-- Where the rules stop, the definitions stay those of the tags before. -/
theorem definitions_of_stops {ending : Except ReportFault Unit} {sawRoot : Bool} {state : State}
    {done rest : List Tag} {last : Trace State} (h : rules.Stops ending sawRoot state done rest last) :
    last.state.definitions = state.definitions := by
  cases h with
  | complete | noRoot | broken | unexpected => rfl
  | refused tag others handler refusal hhandler hrefusal =>
      rw [refused_trace hhandler hrefusal]
      exact apply_ite State.definitions .. |>.trans (ite_self _)

/-- Wherever the rules stop, the definitions that they have read are definitions of the document. -/
theorem definitions_of_apply (reading : Reading) :
    ∀ definition ∈ (rules.apply State.initial reading).state.definitions,
      ∃ test ∈ testMethods (definitionTags reading.tags), Defines test definition := by
  obtain ⟨done, rest, effects, middle, last, htags, hsteps, -, hstops, hfollow⟩ :=
    rules.follow_run reading.ending false State.initial reading.tags
  obtain ⟨tests, definitions, still, -, hdefines, hfinal, htests⟩ := steps_define hsteps .none
  have hfinal : (rules.apply State.initial reading).state.definitions = definitions.reverse := by
    rw [Rules.apply, hfollow, Trace.behind, definitions_of_stops hstops, hfinal]
    exact List.append_nil _
  intro definition hdefinition
  rw [hfinal, List.mem_reverse] at hdefinition
  obtain ⟨test, htest, hdefines⟩ := forall₂_left hdefines.flip definition hdefinition
  have hall := htests (definitionTags rest)
  rw [Option.toList_none, List.nil_append, ← definition_tags_append, ← htags] at hall
  exact ⟨test, by simp [hall, htest], hdefines⟩

end VSTest

open VSTest in
/-- In a sealed document, and only there, every method that defines a test lies inside of it. Then a
report that is parsed charges each result under a name that a method inside of a test of its id gives,
no definition comes from anywhere else, and a result whose id has no such method is refused: as one of an
unknown test if all tags are valid. -/
theorem definitions_enclosed_of_sealed (path : Path) (map : MethodMap) (table : Table)
    {bytes : List UInt8} (hdocument : rules.Admits (Reading.ofBytes bytes)) :
    let tree := (Reading.ofBytes bytes).tree
    let trace := rules.apply State.initial (Reading.ofBytes bytes)
    let parsed := Dialect.vstest.parse path bytes map table
    (Sealed tree ↔
      ∀ test ∈ testMethods (definitionTags tree.tags), tree.Encloses test.1 test.2) ∧
    (Sealed tree →
      (parsed.failure = none → ∃ entries, parsed.table = table.addEntries entries ∧
        List.Forall₂ (fun result entry => ∃ id name, Keeps result (id, entry.2) ∧
          NamedInside tree id name ∧ entry.1 = (attribution map name).1)
          (resultTags tree.tags) entries) ∧
      (∀ definition ∈ trace.state.definitions, NamedInside tree definition.1 definition.2) ∧
      ∀ result ∈ resultTags tree.tags, ∀ id, result.required "testId" = .ok id →
        NeverNamedInside tree id → parsed.failure ≠ none ∧
          ((∃ unknown, parsed.failure = some ⟨path, .unknownTest unknown⟩) ↔ Valid tree.tags)) := by
  intro tree trace parsed
  have htags : tree.tags = (Reading.ofBytes bytes).tags :=
    (Reading.tree_of_complete hdocument.complete).1
  have hsealed : Sealed tree ↔ _ := sealed_iff (htags ▸ Reading.tags_nodup bytes)
  have hfailure : parsed.failure = none ↔ (settle trace).fault = none := Option.map_eq_none_iff
  refine ⟨hsealed, fun hseal => ?_⟩
  have henclosed := hsealed.mp hseal
  refine ⟨fun hnone => ?_, fun definition hdefinition => ?_, fun result hresult id hid hnever => ?_⟩
  · have hcharged := settle_charged hdocument map (hfailure.mp hnone)
    rw [← htags] at hcharged
    refine ⟨_, rfl, hcharged.imp ?_⟩
    rintro result entry ⟨id, name, hkeeps, ⟨_, test, _, htests, hdefines, -⟩, hkey⟩
    have htest : test ∈ testMethods (definitionTags tree.tags) :=
      List.mem_reverse.mp (htests ▸ List.mem_append_right _ List.mem_cons_self)
    exact ⟨id, name, hkeeps, named_inside_of_defines henclosed htest hdefines, hkey⟩
  · obtain ⟨test, htest, hdefines⟩ := definitions_of_apply _ definition hdefinition
    rw [← htags] at htest
    exact named_inside_of_defines henclosed htest hdefines
  · have hundefined : ¬ Defined tree.tags id := by
      rintro ⟨test, htest, hid⟩
      obtain ⟨-, hname, hmethod⟩ := mem_defined_tests_iff.mp htest
      obtain ⟨site, hsite, htag, hinside⟩ := henclosed test htest
      exact hnever site hsite (htag ▸ hname) (htag ▸ hid) test.2 hinside hmethod
    rw [htags] at hresult hundefined ⊢
    refine ⟨fun hnone => ?_, ?_⟩
    · obtain ⟨-, hdefined⟩ := (settle_complete_iff hdocument).mp (hfailure.mp hnone)
      exact hundefined (hdefined result hresult id hid)
    · have hunknown : ∀ unknown, parsed.failure = some ⟨path, .unknownTest unknown⟩ ↔
          Valid (Reading.ofBytes bytes).tags ∧
            FirstDangling (Reading.ofBytes bytes).tags unknown := by
        intro unknown
        rw [← (settle_fault_iff hdocument).2 unknown, parse_failure_eq, Option.map_eq_some_iff]
        simp
      simp only [hunknown, exists_and_left]
      refine ⟨And.left, fun hvalid => ⟨hvalid, ?_⟩⟩
      exact (exists_first_dangling hvalid).mpr ⟨result, hresult, id, hid, hundefined⟩

namespace VSTest

/-- A report with an empty test in front of another one, whose method lies deeper inside, and a method
outside of both. -/
def sealedReport : List UInt8 :=
  ["<TestRun>",
    "<UnitTestResult testId='a' ", "outcome='Passed'/>",
    "<UnitTest id='b'/>",
    "<UnitTest id='a'>", "<Execution id='b'/>", "<Steps>", "<TestMethod ",
    "className='C' name='m(1)'/>", "</Steps>", "</UnitTest>",
    "<TestMethod ", "className='C' name='n'/>",
    "</TestRun>"].flatMap Text.Utf8.encode

/-- A report with an empty test and a method behind it. -/
def strayReport : List UInt8 :=
  ["<TestRun>",
    "<UnitTestResult testId='a' ", "outcome='Passed'/>",
    "<UnitTest id='a'/>",
    "<TestMethod ", "className='C' name='m'/>",
    "</TestRun>"].flatMap Text.Utf8.encode

/-- The sealed report can be read to its end below a root tag. -/
theorem sealed_report_admitted : rules.Admits (Reading.ofBytes sealedReport) := by
  have hread : (Reading.ofBytes sealedReport).ending = .ok () ∧
      (∃ tag ∈ (Reading.ofBytes sealedReport).tags, tag.depth = 0) ∧
      ∀ tag ∈ (Reading.ofBytes sealedReport).tags, tag.depth = 0 → tag.name ∈ rules.roots := by
    decide +kernel
  exact ⟨hread.1, hread.2.1, hread.2.2⟩

end VSTest

/-- The sealed report has its result charged to the name that stands inside of its test. -/
theorem sealed_report_defines_inside :
    let map := MethodMap.ofList [("C.m", ⟨"C.cs"⟩)]
    let tree := (Reading.ofBytes VSTest.sealedReport).tree
    let parsed := Dialect.vstest.parse ⟨"a.trx"⟩ VSTest.sealedReport map .empty
    VSTest.rules.Admits (Reading.ofBytes VSTest.sealedReport) ∧ VSTest.Sealed tree ∧
      parsed.failure = none ∧ parsed.table.file? ⟨"C.cs"⟩ = some (Counts.ofRecord ⟨.passed, none⟩) ∧
      ∃ entries, parsed.table = Table.empty.addEntries entries ∧
        List.Forall₂ (fun result entry => ∃ id name, VSTest.Keeps result (id, entry.2) ∧
          VSTest.NamedInside tree id name ∧ entry.1 = (attribution map name).1)
          (VSTest.resultTags tree.tags) entries := by
  intro map tree parsed
  have hread : VSTest.Sealed tree ∧ parsed.failure = none ∧
      parsed.table.file? ⟨"C.cs"⟩ = some (Counts.ofRecord ⟨.passed, none⟩) := by decide +kernel
  obtain ⟨hsealed, hnone, hfile⟩ := hread
  obtain ⟨-, hinside⟩ :=
    definitions_enclosed_of_sealed ⟨"a.trx"⟩ map .empty VSTest.sealed_report_admitted
  exact ⟨VSTest.sealed_report_admitted, hsealed, hnone, hfile, (hinside hsealed).1 hnone⟩

/-- Behind a test without a method inside it, one that lies outside of every test gives it a name: the
report is parsed, and its result is charged under that name. -/
theorem stray_method_defines_test :
    let map := MethodMap.ofList [("C.m", ⟨"C.cs"⟩)]
    let tree := (Reading.ofBytes VSTest.strayReport).tree
    let parsed := Dialect.vstest.parse ⟨"a.trx"⟩ VSTest.strayReport map .empty
    VSTest.rules.Admits (Reading.ofBytes VSTest.strayReport) ∧ VSTest.NeverNamedInside tree "a" ∧
      (∃ result ∈ VSTest.resultTags tree.tags, result.required "testId" = .ok "a") ∧
      parsed.failure = none ∧
      parsed.table.file? ⟨"C.cs"⟩ = some (Counts.ofRecord ⟨.passed, none⟩) := by
  intro map tree parsed
  have hread : (Reading.ofBytes VSTest.strayReport).ending = .ok () ∧
      (∃ tag ∈ (Reading.ofBytes VSTest.strayReport).tags, tag.depth = 0) ∧
      (∀ tag ∈ (Reading.ofBytes VSTest.strayReport).tags, tag.depth = 0 →
        tag.name ∈ VSTest.rules.roots) ∧
      VSTest.NeverNamedInside tree "a" ∧
      (∃ result ∈ VSTest.resultTags tree.tags, result.required "testId" = .ok "a") ∧
      parsed.failure = none ∧
      parsed.table.file? ⟨"C.cs"⟩ = some (Counts.ofRecord ⟨.passed, none⟩) := by
    decide +kernel
  obtain ⟨hcomplete, hrooted, hroots, hcharged⟩ := hread
  exact ⟨⟨hcomplete, hrooted, hroots⟩, hcharged⟩

end TestMeasures
