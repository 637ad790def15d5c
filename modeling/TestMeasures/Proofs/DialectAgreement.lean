import TestMeasures.Proofs.WrittenReports

/-!
# One run in three dialects

Reports of the three dialects that list the same tests give the same table (`dialects_agree`),
whatever the names of the tests and their assemblies, the words for their outcomes, and the way in
which the documents are written.
-/

namespace TestMeasures

open Xml (Forest)

variable {map : MethodMap} {tests : List RunTest} {entries : List (ResultKey × TestRecord)}
    {forest : Forest}

/-- Records that belong to tests one by one are those of the tests. -/
theorem entries_eq
    (h : List.Forall₂ (fun test entry => RunTest.entry? map test = some entry) tests entries) :
    entries = tests.filterMap (RunTest.entry? map) := by
  induction h with
  | nil => rfl
  | cons hentry _ ih => rw [List.filterMap_cons_some hentry, ← ih]

/-- Without times, every test has a record. -/
theorem entry_of_no_time (htimes : ∀ test ∈ tests, test.time = none) :
    ∀ test ∈ tests, (test.entry? map).isSome := by
  intro test htest
  rw [RunTest.entry?, htimes test htest]
  rfl

/-- A written document of a dialect that records tests at once is parsed when every time can be
read, and then adds the records of its tests. -/
theorem parse_listed {σ : Type} {rules : Rules σ} {tells : RunTest → List Element → Prop}
    (dialect : Dialect) (initial : σ)
    (haccount : ∀ reading, dialect.account reading = (rules.apply initial reading).account)
    (hrecords : ∀ test tags elements, tells test elements → List.Forall₂ Tag.Shows tags elements →
      rules.Records map test tags)
    (h : rules.Lists tells (forest.elements 0) tests) (path : Path) (table : Table) :
    let parsed := dialect.parse path (Text.Utf8.encode forest.document) map table
    (parsed.failure = none ↔ ∀ test ∈ tests, (test.entry? map).isSome) ∧
      (parsed.failure = none →
        parsed.table = table.addEntries (tests.filterMap (RunTest.entry? map))) := by
  obtain ⟨hending, hshows⟩ := Reading.of_written forest
  unfold Dialect.parse
  generalize Reading.ofBytes (Text.Utf8.encode forest.document) = reading at hending hshows ⊢
  obtain ⟨hfault, hentries⟩ := h.apply hrecords hending hshows initial
  rw [haccount]
  exact ⟨Option.map_eq_none_iff.trans hfault, fun hnone => congrArg table.addEntries
    (entries_eq (hentries (Option.map_eq_none_iff.mp hnone)))⟩

/-- A written document of the dialect that settles results in the end, with tests without times, is
parsed and adds the records of its tests. -/
theorem VSTest.parse_listed {results : List RunTest} (h : Lists (forest.elements 0) results)
    (hplain : ∀ test ∈ results, test.PlainClass) (htimes : ∀ test ∈ results, test.time = none)
    (path : Path) (map : MethodMap) (table : Table) :
    let parsed := Dialect.vstest.parse path (Text.Utf8.encode forest.document) map table
    parsed.failure = none ∧
      parsed.table = table.addEntries (results.filterMap (RunTest.entry? map)) := by
  obtain ⟨hending, hshows⟩ := Reading.of_written forest
  unfold Dialect.parse
  generalize Reading.ofBytes (Text.Utf8.encode forest.document) = reading at hending hshows ⊢
  obtain ⟨hfault, hentries⟩ := settle_listed h hplain htimes hending hshows map
  exact ⟨Option.map_eq_none_iff.mpr hfault, congrArg table.addEntries (entries_eq hentries)⟩

/-- Take written reports of two dialects that list the same tests, each test behind its assembly and
with the same time if any. Both can be parsed or neither, and they add the same records. Without
times both can be parsed, and so can a report of the third dialect in which the tests have ids of
their own and classes that do not name an assembly. It adds the same records too, in the order of
its results. -/
theorem dialects_agree (map : MethodMap) (table : Table) (xpath npath : Path) {tests : List RunTest}
    {x n : Forest} (hxunit : XUnit.Lists (x.elements 0) tests)
    (hnunit : NUnit.Lists (n.elements 0) tests) :
    let xunit := Dialect.xunit.parse xpath (Text.Utf8.encode x.document) map table
    let nunit := Dialect.nunit.parse npath (Text.Utf8.encode n.document) map table
    (xunit.failure = none ↔ nunit.failure = none) ∧
      (xunit.failure = none → xunit.table = nunit.table) ∧
      ((∀ test ∈ tests, test.time = none) → xunit.failure = none ∧
        ∀ (vpath : Path) (v : Forest) (results : List RunTest),
          VSTest.Lists (v.elements 0) results → results.Perm tests →
          (∀ test ∈ tests, test.PlainClass) →
            let vstest := Dialect.vstest.parse vpath (Text.Utf8.encode v.document) map table
            vstest.failure = none ∧ vstest.table.agrees xunit.table = true ∧
              (results = tests → vstest.table = xunit.table)) := by
  intro xunit nunit
  obtain ⟨hx, hxtable⟩ := parse_listed .xunit none (fun _ => rfl)
    (fun _ _ _ => XUnit.records map) hxunit xpath table
  obtain ⟨hn, hntable⟩ := parse_listed .nunit none (fun _ => rfl)
    (fun _ _ _ => NUnit.records map) hnunit npath table
  refine ⟨hx.trans hn.symm, fun hnone => ?_, fun htimes => ?_⟩
  · exact (hxtable hnone).trans (hntable (hn.mpr (hx.mp hnone))).symm
  · have hnone : xunit.failure = none := hx.mpr (entry_of_no_time htimes)
    refine ⟨hnone, fun vpath v results hvstest hperm hplain => ?_⟩
    obtain ⟨hv, hvtable⟩ := VSTest.parse_listed hvstest
      (fun test htest => hplain test (hperm.mem_iff.mp htest))
      (fun test htest => htimes test (hperm.mem_iff.mp htest)) vpath map table
    refine ⟨hv, ?_, ?_⟩
    · rw [hvtable, hxtable hnone]
      exact Table.add_entries_agrees (Table.agrees_refl table) (hperm.filterMap _)
    · rintro rfl
      exact hvtable.trans (hxtable hnone).symm

/-- A test with arguments. -/
def sumTest : RunTest :=
  ⟨"build/Calc.Tests.dll", "Calc.SumTests", "Adds(1, 2)", .passed, none⟩

/-- A test of the same class that was not executed. -/
def carryTest : RunTest :=
  ⟨"build/Calc.Tests.dll", "Calc.SumTests", "Carries", .skipped, none⟩

/-- Reports of the three dialects on two tests of a calculator, one of which was not executed, are charged
alike. -/
theorem calculator_reports_agree :
    let map := MethodMap.ofList [("Calc.Tests.Calc.SumTests.Adds", ⟨"Sum.cs"⟩)]
    let x := XUnit.report [sumTest, carryTest]
    let n := NUnit.report [sumTest, carryTest]
    let v := VSTest.report [("b", carryTest), ("a", sumTest)]
    let xunit := Dialect.xunit.parse ⟨"x.xml"⟩ (Text.Utf8.encode x.document) map .empty
    let nunit := Dialect.nunit.parse ⟨"n.xml"⟩ (Text.Utf8.encode n.document) map .empty
    let vstest := Dialect.vstest.parse ⟨"v.trx"⟩ (Text.Utf8.encode v.document) map .empty
    XUnit.Lists (x.elements 0) [sumTest, carryTest] ∧
      NUnit.Lists (n.elements 0) [sumTest, carryTest] ∧
      VSTest.Lists (v.elements 0) [carryTest, sumTest] ∧
      xunit.failure = none ∧ xunit.table = nunit.table ∧
      vstest.failure = none ∧ vstest.table.agrees xunit.table = true ∧
      xunit.table.file? ⟨"Sum.cs"⟩ = some (Counts.ofRecord ⟨.passed, none⟩) := by
  intro map x n v xunit nunit vstest
  have hx : XUnit.Lists (x.elements 0) [sumTest, carryTest] := XUnit.report_lists (by decide)
  have hn : NUnit.Lists (n.elements 0) [sumTest, carryTest] := NUnit.report_lists _
  have hv : VSTest.Lists (v.elements 0) [carryTest, sumTest] := VSTest.report_lists (by decide)
  have hplain : ∀ test ∈ [sumTest, carryTest], test.PlainClass := by
    have hclass : ',' ∉ "Calc.SumTests".toList ∧ Text.trim "Calc.SumTests" = "Calc.SumTests" := by
      decide +kernel
    intro test htest
    obtain rfl | rfl := List.mem_pair.mp htest
    · exact hclass
    · exact hclass
  obtain ⟨-, htable, htimes⟩ := dialects_agree map .empty ⟨"x.xml"⟩ ⟨"n.xml"⟩ hx hn
  obtain ⟨hnone, hvstest⟩ := htimes (by decide)
  obtain ⟨hvnone, hagrees, -⟩ := hvstest ⟨"v.trx"⟩ v [carryTest, sumTest] hv (.swap ..) hplain
  have hxtable :
      xunit.table = Table.empty.addEntries ([sumTest, carryTest].filterMap (RunTest.entry? map)) :=
    (parse_listed .xunit none (fun _ => rfl) (fun _ _ _ => XUnit.records map) hx ⟨"x.xml"⟩ .empty).2
      hnone
  refine ⟨hx, hn, hv, hnone, htable hnone, hvnone, hagrees, ?_⟩
  rw [hxtable]
  decide +kernel

end TestMeasures
