import TestMeasures.Proofs.ListedTests

/-!
# Reports as the dialects write them

For every list of tests there are documents of each dialect that list them (`XUnit.report_lists`,
`NUnit.report_lists`, `VSTest.report_lists`), with one assembly or definition for each test and any
texts for names, assemblies and times.
-/

namespace TestMeasures

open Xml (Forest WrittenTag)

variable {α : Type} {tests : List RunTest}

/-- The attribute of a time, if there is one. -/
def timeAttribute (time : Option String) : List (String × String) :=
  (time.map fun text => ("time", text)).toList

/-- A tag with room for a time has plain names with the time and without it. -/
theorem names_with_time {name : String} {attributes : List (String × String)}
    (h : WrittenTag.PlainNames name (attributes.map Prod.fst ++ ["time"])) (time : Option String) :
    WrittenTag.PlainNames name ((attributes ++ timeAttribute time).map Prod.fst) := by
  rw [List.map_append]
  cases time with
  | some text => exact h
  | none =>
      obtain ⟨hname, hattributes, hdistinct⟩ := h
      rw [timeAttribute, Option.map_none, Option.toList_none, List.map_nil, List.append_nil]
      exact ⟨hname, fun _ hmem => hattributes _ (List.mem_append_left _ hmem),
        hdistinct.of_append_left⟩

/-- One element for each item, with another inside. -/
def nested (outer inner : α → WrittenTag) (items : List α) : Forest :=
  items.foldr (fun item rest => .element (outer item) (.empty (inner item) .nil) .none rest) .nil

/-- The elements of an item, outermost but one. -/
def nestedElements (outer inner : α → WrittenTag) (item : α) : List Element :=
  [(outer item).element 1, (inner item).element 2]

/-- The elements of nested items are those of each item. -/
theorem nested_elements (outer inner : α → WrittenTag) (items : List α) :
    (nested outer inner items).elements 1 = (items.map (nestedElements outer inner)).flatten := by
  induction items with
  | nil => rfl
  | cons item items ih =>
      rw [nested, List.foldr_cons, List.map_cons, List.flatten_cons, ← ih]
      rfl

/-- An element of nested items is the outer or the inner one of an item. -/
theorem mem_nested_elements {outer inner : α → WrittenTag} {items : List α} {element : Element}
    (h : element ∈ (items.map (nestedElements outer inner)).flatten) :
    ∃ item, element = (outer item).element 1 ∨ element = (inner item).element 2 := by
  obtain ⟨block, hblock, helement⟩ := List.mem_flatten.mp h
  obtain ⟨item, -, rfl⟩ := List.mem_map.mp hblock
  exact ⟨item, List.mem_pair.mp helement⟩

/-- A document that has one such element for each test inside its root lists them, when the rules
handle its elements but the root. -/
theorem nested_lists {σ : Type} {rules : Rules σ} {tells : RunTest → List Element → Prop}
    {root : WrittenTag} {outer inner : RunTest → WrittenTag}
    (hroot : (root.element 0).name ∈ rules.roots)
    (hplain : rules.handles (root.element 0).name = false)
    (houter : ∀ test, rules.handles ((outer test).element 1).name = true)
    (hinner : ∀ test, rules.handles ((inner test).element 2).name = true)
    (htells : ∀ test ∈ tests, tells test (nestedElements outer inner test)) :
    rules.Lists tells ((Forest.element root (nested outer inner tests) .none .nil).elements 0)
      tests := by
  rw [Forest.elements, nested_elements, Forest.elements, List.append_nil]
  refine ⟨⟨root.element 0, List.mem_cons_self, rfl⟩,
    List.forall_mem_cons.mpr ⟨fun _ => hroot, fun element helement hdepth => ?_⟩,
    tests.map (nestedElements outer inner), ?_, ?_⟩
  · obtain ⟨test, rfl | rfl⟩ := mem_nested_elements helement
    · exact absurd hdepth Nat.one_ne_zero
    · exact absurd hdepth (Nat.succ_ne_zero 1)
  · rw [List.forall₂_map_right_iff, List.forall₂_same]
    exact htells
  · rw [List.filter_cons_of_neg (by simp [hplain]), List.filter_eq_self]
    intro element helement
    obtain ⟨test, rfl | rfl⟩ := mem_nested_elements helement
    · exact houter test
    · exact hinner test

namespace XUnit

/-- A word for an outcome that has one. -/
def word : Outcome → String
  | .passed => "Pass"
  | .failed => "Fail"
  | _ => "Skip"

/-- The report of some tests. -/
def report (tests : List RunTest) : Forest :=
  .element (.plain "assemblies" [] (by decide +kernel)) (nested
    (fun test => .plain "assembly" [("name", test.assembly)]
      (show WrittenTag.PlainNames "assembly" ["name"] by decide +kernel))
    (fun test => .plain "test"
      ([("name", test.fullName), ("result", word test.outcome)] ++ timeAttribute test.time)
      (names_with_time
        (show WrittenTag.PlainNames "test" ["name", "result", "time"] by decide +kernel)
        test.time))
    tests) .none .nil

/-- A report of xUnit lists its tests. -/
theorem report_lists (houtcomes : ∀ test ∈ tests, test.outcome ≠ .error) :
    Lists ((report tests).elements 0) tests := by
  refine nested_lists ?_ rfl (fun _ => rfl) (fun _ => rfl) fun test htest => ?_
  · simp [rules, WrittenTag.plain_element]
  · rw [nestedElements, WrittenTag.plain_element, WrittenTag.plain_element]
    refine .mk rfl rfl rfl rfl rfl ?_ ?_
    · have houtcome := houtcomes test htest
      cases hresult : test.outcome with
      | passed | failed | skipped => rfl
      | error => exact absurd hresult houtcome
    · cases test.time <;> rfl

end XUnit

namespace NUnit

/-- A word for an outcome. -/
def word : Outcome → String
  | .passed => "Passed"
  | .failed => "Failed"
  | .error => "Error"
  | .skipped => "Skipped"

/-- The report of some tests. -/
def report (tests : List RunTest) : Forest :=
  .element (.plain "test-run" [] (by decide +kernel)) (nested
    (fun test => .plain "test-suite" [("type", "Assembly"), ("name", test.assembly)]
      (show WrittenTag.PlainNames "test-suite" ["type", "name"] by decide +kernel))
    (fun test => .plain "test-case"
      ([("fullname", test.fullName), ("result", word test.outcome)] ++ timeAttribute test.time)
      (names_with_time
        (show WrittenTag.PlainNames "test-case" ["fullname", "result", "time"] by decide +kernel)
        test.time))
    tests) .none .nil

/-- A report of NUnit lists its tests. -/
theorem report_lists (tests : List RunTest) : Lists ((report tests).elements 0) tests := by
  refine nested_lists ?_ rfl (fun _ => rfl) (fun _ => rfl) fun test htest => ?_
  · simp [rules, WrittenTag.plain_element]
  · rw [nestedElements, WrittenTag.plain_element, WrittenTag.plain_element]
    refine .mk rfl rfl rfl rfl rfl rfl ?_ ?_ ?_ ?_ ?_
    · cases test.outcome <;> rfl
    all_goals cases test.time <;> rfl

end NUnit

namespace VSTest

/-- A word for an outcome. -/
def word : Outcome → String
  | .passed => "Passed"
  | .failed => "Failed"
  | .error => "Error"
  | .skipped => "NotExecuted"

/-- The result of a test of an id. -/
def resultTag (known : String × RunTest) : WrittenTag :=
  .plain "UnitTestResult" [("testId", known.1), ("outcome", word known.2.outcome)]
    (show WrittenTag.PlainNames "UnitTestResult" ["testId", "outcome"] by decide +kernel)

/-- The test of an id. -/
def testTag (known : String × RunTest) : WrittenTag :=
  .plain "UnitTest" [("id", known.1)]
    (show WrittenTag.PlainNames "UnitTest" ["id"] by decide +kernel)

/-- The method of a test. -/
def methodTag (known : String × RunTest) : WrittenTag :=
  .plain "TestMethod"
    [("codeBase", known.2.assembly), ("className", known.2.className), ("name", known.2.method)]
    (show WrittenTag.PlainNames "TestMethod" ["codeBase", "className", "name"] by decide +kernel)

/-- The report of tests of some ids, the results in front of the definitions. -/
def report (known : List (String × RunTest)) : Forest :=
  .element (.plain "TestRun" [] (by decide +kernel))
    (known.foldr (fun known rest => .empty (resultTag known) rest) (nested testTag methodTag known))
    .none .nil

/-- The elements of a report of VSTest are its root, its results and its definitions. -/
theorem report_elements (known : List (String × RunTest)) :
    (report known).elements 0 = ⟨"TestRun", 0, []⟩ ::
      ((known.map fun known => (resultTag known).element 1) ++
        (known.map (nestedElements testTag methodTag)).flatten) := by
  have hinside (rest : Forest) :
      (known.foldr (fun known rest => Forest.empty (resultTag known) rest) rest).elements 1 =
        (known.map fun known => (resultTag known).element 1) ++ rest.elements 1 := by
    induction known with
    | nil => rfl
    | cons first known ih =>
        rw [List.foldr_cons, Forest.elements, ih]
        rfl
  rw [report, Forest.elements, hinside, nested_elements, WrittenTag.plain_element, Forest.elements,
    List.append_nil]

/-- The results of a report are its elements of that name. -/
theorem report_results (known : List (String × RunTest)) :
    (((report known).elements 0).filter fun element => element.name == "UnitTestResult") =
      known.map fun known => (resultTag known).element 1 := by
  rw [report_elements, List.filter_cons_of_neg (by decide), List.filter_append,
    List.filter_eq_self.mpr, List.filter_eq_nil_iff.mpr, List.append_nil]
  · intro element helement
    obtain ⟨_, rfl | rfl⟩ := mem_nested_elements helement
    · exact Bool.false_ne_true
    · exact Bool.false_ne_true
  · intro element helement
    obtain ⟨_, -, rfl⟩ := List.mem_map.mp helement
    rfl

/-- The elements that define tests in a report are those behind its results. -/
theorem report_definitions (known : List (String × RunTest)) :
    (((report known).elements 0).filter
        fun element => element.name == "UnitTest" || element.name == "TestMethod") =
      (known.map (nestedElements testTag methodTag)).flatten := by
  rw [report_elements, List.filter_cons_of_neg (by decide), List.filter_append,
    List.filter_eq_nil_iff.mpr, List.nil_append, List.filter_eq_self]
  · intro element helement
    obtain ⟨_, rfl | rfl⟩ := mem_nested_elements helement
    · rfl
    · rfl
  · intro element helement
    obtain ⟨_, -, rfl⟩ := List.mem_map.mp helement
    exact Bool.false_ne_true

/-- The outermost element of a report is its root. -/
theorem report_roots (known : List (String × RunTest)) :
    ∀ element ∈ (report known).elements 0, element.depth = 0 → element.name ∈ rules.roots := by
  rw [report_elements, List.forall_mem_cons]
  refine ⟨fun _ => List.mem_singleton_self _, fun element helement hdepth => ?_⟩
  rcases List.mem_append.mp helement with helement | helement
  · obtain ⟨_, -, rfl⟩ := List.mem_map.mp helement
    exact absurd hdepth Nat.one_ne_zero
  · obtain ⟨_, rfl | rfl⟩ := mem_nested_elements helement
    · exact absurd hdepth Nat.one_ne_zero
    · exact absurd hdepth (Nat.succ_ne_zero 1)

/-- A report of VSTest lists the tests of its ids. -/
theorem report_lists {known : List (String × RunTest)} (hdistinct : (known.map Prod.fst).Nodup) :
    Lists ((report known).elements 0) (known.map Prod.snd) where
  rooted := by
    rw [report_elements]
    exact ⟨_, List.mem_cons_self, rfl⟩
  roots := report_roots known
  identified := by
    refine ⟨known, known, known.map (nestedElements testTag methodTag), rfl, hdistinct, .refl known,
      ?_, ?_, report_definitions known⟩
    · rw [report_results, List.forall₂_map_right_iff, List.forall₂_same]
      intro entry _
      rw [resultTag, WrittenTag.plain_element]
      exact .mk rfl rfl (by cases entry.2.outcome <;> rfl) rfl
    · rw [List.forall₂_map_right_iff, List.forall₂_same]
      intro entry _
      rw [nestedElements, testTag, methodTag, WrittenTag.plain_element, WrittenTag.plain_element]
      exact .mk rfl rfl rfl rfl rfl rfl

end VSTest

end TestMeasures
