import TestMeasures.Proofs.ReplacedValues
import TestMeasures.Proofs.TextCuts
import TestMeasures.Report.Dialect

/-!
# Tests under other names

A test is looked up without its argument list, and an assembly goes by its file name without the extension. So
nothing depends on argument lists, directories, separators and extensions: a document in which they are replaced
(`Renaming`) is parsed into the same table, or with the same kind of fault (`renamed_tests_parse_alike`).
-/

namespace TestMeasures

open Xml (AttributeFront QuotedValue byte isSpace)

/-- Two names of a test: they differ in the argument list, or only the second one has any. -/
inductive SameButArguments : String → String → Prop where
  | changed (name arguments others : String) : SameButArguments (name ++ "(" ++ arguments) (name ++ "(" ++ others)
  | added {name : String} (arguments : String) (hplain : '(' ∉ name.toList)
      (hend : ∀ c ∈ name.toList.getLast?, Text.isBlank c = false) : SameButArguments name (name ++ "(" ++ arguments)

/-- A path has a file name behind its last separator, and both kinds of slash separate. -/
def NamesFile (path file : String) : Prop :=
  ∃ directory, path = directory ++ file ∧ (∀ c ∈ directory.toList.getLast?, c = '/' ∨ c = '\\') ∧
    '/' ∉ file.toList ∧ '\\' ∉ file.toList

/-- Two paths of an assembly: they name the same file, or files that differ in what is behind the last point. -/
inductive SameAssembly : String → String → Prop where
  | moved {path path' file : String} (h : NamesFile path file) (h' : NamesFile path' file) : SameAssembly path path'
  | extension {path path' stem ending ending' : String} (hstem : stem ≠ "") (hending : '.' ∉ ending.toList)
      (hending' : '.' ∉ ending'.toList) (h : NamesFile path (stem ++ "." ++ ending))
      (h' : NamesFile path' (stem ++ "." ++ ending')) : SameAssembly path path'

/-- The attributes that hold names of tests, each behind the name of its tag. -/
def testNames : List (String × String) :=
  [("test", "name"), ("test", "fullname"), ("test-case", "name"), ("test-case", "fullname"), ("TestMethod", "name")]

/-- The attributes that hold paths of assemblies, each behind the name of its tag. -/
def assemblyPaths : List (String × String) :=
  [("assembly", "name"), ("test-suite", "name"), ("TestMethod", "codeBase")]

/-- A name of a test may stand for one that differs in the argument list, and a path of an assembly for another
one. -/
def Renaming : Replacement := fun tag attributeName text text' =>
  (tag, attributeName) ∈ testNames ∧ SameButArguments text text' ∨
    (tag, attributeName) ∈ assemblyPaths ∧ SameAssembly text text'

section naming

variable {name front : List Char}

/-- A name is cut at its first parenthesis. -/
theorem drop_arguments_cut (h : '(' ∉ name) (rest : List Char) :
    dropArguments (name ++ '(' :: rest) = Text.dropTrailing Text.isBlank name := by
  have hname : (name ++ '(' :: rest).takeWhile (· != '(') = name := by
    rw [List.takeWhile_append_of_pos fun c hc => by simpa using fun heq : c = '(' => h (heq ▸ hc)]
    simp
  unfold dropArguments
  rw [hname]
  simp

/-- A name without a parenthesis has no arguments to drop. -/
theorem drop_arguments_plain (h : '(' ∉ name) : dropArguments name = name := by
  have hname : name.takeWhile (· != '(') = name :=
    List.takeWhile_eq_self_iff.mpr fun c hc => by simpa using fun heq : c = '(' => h (heq ▸ hc)
  unfold dropArguments
  rw [hname]
  simp

/-- What stands behind a parenthesis does not matter. -/
theorem drop_arguments_behind (name rest rest' : List Char) :
    dropArguments (name ++ '(' :: rest') = dropArguments (name ++ '(' :: rest) := by
  by_cases hmem : '(' ∈ name
  · obtain ⟨cut, behind, rfl, hcut⟩ := List.eq_append_cons_of_mem hmem
    rw [List.append_assoc, List.append_assoc, List.cons_append, List.cons_append, drop_arguments_cut hcut,
      drop_arguments_cut hcut]
  · rw [drop_arguments_cut hmem, drop_arguments_cut hmem]

/-- The characters of a name with arguments are those of the name, a parenthesis and those of the
arguments. -/
theorem to_list_arguments (name arguments : String) :
    (name ++ "(" ++ arguments).toList = name.toList ++ '(' :: arguments.toList := by
  simp [String.toList_append]

/-- An argument list is dropped behind whatever stands in front of the name, up to a character that is no blank. -/
theorem SameButArguments.drop_arguments {text text' : String} (h : SameButArguments text text')
    (hfront : ∀ c ∈ front.getLast?, Text.isBlank c = false) :
    dropArguments (front ++ text'.toList) = dropArguments (front ++ text.toList) := by
  cases h with
  | changed name arguments others =>
      rw [to_list_arguments, to_list_arguments, ← List.append_assoc, ← List.append_assoc]
      exact drop_arguments_behind _ _ _
  | added arguments hplain hend =>
      rw [to_list_arguments]
      by_cases hmem : '(' ∈ front
      · -- The cut is in front of the name already.
        obtain ⟨cut, behind, rfl, -⟩ := List.eq_append_cons_of_mem hmem
        rw [List.append_assoc, List.append_assoc]
        exact drop_arguments_behind _ _ _
      · have hwhole : '(' ∉ front ++ text.toList := by simp [hmem, hplain]
        have hlast : ∀ c ∈ (front ++ text.toList).getLast?, Text.isBlank c = false := by
          intro c hc
          rw [List.getLast?_append] at hc
          rcases Option.or_eq_some_iff.mp hc with hc | ⟨-, hc⟩
          · exact hend c hc
          · exact hfront c hc
        rw [← List.append_assoc, drop_arguments_cut hwhole, drop_arguments_plain hwhole, drop_trailing_eq_self hlast]

/-- Names that differ in their arguments are qualified alike. -/
theorem SameButArguments.qualified_name {text text' : String} (h : SameButArguments text text') {front : String}
    (hfront : ∀ c ∈ front.toList.getLast?, Text.isBlank c = false) (qualifier : Option String) :
    qualifiedName qualifier (front ++ text') = qualifiedName qualifier (front ++ text) := by
  unfold qualifiedName
  rw [String.toList_append, String.toList_append, h.drop_arguments hfront]

/-- The file name of a path is what stands behind its last separator. -/
theorem NamesFile.last_part {path file : String} (h : NamesFile path file) : lastPart path.toList = file.toList := by
  obtain ⟨directory, rfl, hdirectory, hslash, hbackslash⟩ := h
  have hplain : ∀ c ∈ file.toList.reverse, (c != '/' && c != '\\') = true := fun c hc => by
    rw [List.mem_reverse] at hc
    simpa using ⟨fun heq : c = '/' => hslash (heq ▸ hc), fun heq : c = '\\' => hbackslash (heq ▸ hc)⟩
  have hstop : directory.toList.reverse.takeWhile (fun c => c != '/' && c != '\\') = [] := by
    rw [List.getLast?_eq_head?_reverse] at hdirectory
    cases hreverse : directory.toList.reverse with
    | nil => rfl
    | cons c others =>
        rw [hreverse] at hdirectory
        rw [List.takeWhile_cons_of_neg (by rcases hdirectory c rfl with rfl | rfl <;> simp)]
  unfold lastPart
  rw [String.toList_append, List.reverse_append, List.takeWhile_append_of_pos hplain, hstop, List.append_nil,
    List.reverse_reverse]

/-- The last point of a file name begins its extension, unless it comes first. -/
theorem drop_extension_append {stem ending : List Char} (hstem : stem ≠ []) (hending : '.' ∉ ending) :
    dropExtension (stem ++ '.' :: ending) = stem := by
  have hplain : ∀ c ∈ ending.reverse, (c != '.') = true := fun c hc => by
    simpa using fun heq : c = '.' => hending (heq ▸ List.mem_reverse.mp hc)
  have hreverse : (stem ++ '.' :: ending).reverse = ending.reverse ++ '.' :: stem.reverse := by simp
  have htake : (ending.reverse ++ '.' :: stem.reverse).takeWhile (· != '.') = ending.reverse := by
    rw [List.takeWhile_append_of_pos hplain]
    simp
  unfold dropExtension
  simp only [hreverse, htake, List.drop_left]
  rw [if_neg (by simpa using hstem), List.reverse_reverse]

/-- Paths of one assembly give the same qualifier. -/
theorem SameAssembly.qualifier {path path' : String} (h : SameAssembly path path') :
    assemblyQualifier path' = assemblyQualifier path := by
  unfold assemblyQualifier
  cases h with
  | moved h h' => rw [h.last_part, h'.last_part]
  | extension hstem hending hending' h h' =>
      have hpoint (stem ending : String) : (stem ++ "." ++ ending).toList = stem.toList ++ '.' :: ending.toList := by
        simp [String.toList_append]
      have hchars : _ ≠ [] := fun hnil => hstem (String.toList_eq_nil_iff.mp hnil)
      rw [h.last_part, h'.last_part, hpoint, hpoint, drop_extension_append hchars hending,
        drop_extension_append hchars hending']

end naming

/-- A computation that goes on comes to the same when it does from what is related. -/
theorem SameAnswer.bind {α β γ δ : Type} {relates : α → β → Prop} {relates' : γ → δ → Prop}
    {x : Except TagFault α} {y : Except TagFault β} {f : α → Except TagFault γ} {g : β → Except TagFault δ}
    (h : SameAnswer relates x y) (hgoes : ∀ a b, relates a b → SameAnswer relates' (f a) (g b)) :
    SameAnswer relates' (x >>= f) (y >>= g) := by
  cases h with
  | ok h => exact hgoes _ _ h
  | error h => exact .error h

/-- Answers that are related are so in whatever follows from the relation. -/
theorem SameAnswer.imp {α β : Type} {relates relates' : α → β → Prop} {x : Except TagFault α} {y : Except TagFault β}
    (h : SameAnswer relates x y) (himp : ∀ a b, relates a b → relates' a b) : SameAnswer relates' x y := by
  cases h with
  | ok h => exact .ok (himp _ _ h)
  | error hkind => exact .error hkind

/-- An answer comes to the same as itself. -/
theorem SameAnswer.refl {α : Type} (x : Except TagFault α) : SameAnswer Eq x x := by
  cases x with
  | ok a => exact .ok rfl
  | error fault => exact .error rfl

/-- Answers that come to the same are the same, up to faults. -/
theorem SameAnswer.eq_or_faults {α : Type} {x y : Except TagFault α} (h : SameAnswer Eq x y) :
    y = x ∨ ∃ fault fault', x = .error fault ∧ y = .error fault' ∧ fault'.kind = fault.kind := by
  cases h with
  | ok heq => exact .inl (congrArg Except.ok heq.symm)
  | error hkind => exact .inr ⟨_, _, rfl, rfl, hkind⟩

namespace Tag.Alike

variable {may : Replacement} {tag other : Tag} {attributeName : String}

/-- A required attribute of an alike tag is the same or a value that may replace it. -/
theorem required (h : tag.Alike may other) (attributeName : String) :
    SameAnswer (fun text text' => text' = text ∨ may tag.name attributeName text text')
      (tag.required attributeName) (other.required attributeName) := by
  have hoptional := h.optional attributeName
  unfold Tag.required
  rw [h.name]
  generalize tag.optional attributeName = answer, other.optional attributeName = answer' at hoptional ⊢
  cases hoptional with
  | error hkind => exact .error hkind
  | ok hvalues =>
      cases hvalues with
      | some hvalue => exact .ok hvalue
      | none => exact .error rfl

section kept

variable (h : tag.Alike may other) (hkept : ∀ text text', ¬ may tag.name attributeName text text')

include h hkept

/-- An attribute whose values may not be replaced is answered as before. -/
theorem optional_kept : SameAnswer Eq (tag.optional attributeName) (other.optional attributeName) := by
  have hoptional := h.optional attributeName
  generalize tag.optional attributeName = answer, other.optional attributeName = answer' at hoptional ⊢
  cases hoptional with
  | error hkind => exact .error hkind
  | ok hvalues =>
      cases hvalues with
      | none => exact .ok rfl
      | some hvalue => exact .ok (congrArg some (hvalue.resolve_right (hkept _ _)).symm)

/-- A required attribute that may not be replaced is kept. -/
theorem required_kept : SameAnswer Eq (tag.required attributeName) (other.required attributeName) := by
  unfold Tag.required
  rw [h.name]
  rcases (h.optional_kept hkept).eq_or_faults with heq | ⟨fault, fault', hfault, hfault', hkind⟩
  · rw [heq]
    exact .refl _
  · rw [hfault, hfault']
    exact .error hkind

/-- A flag that may not be replaced is kept. -/
theorem flag_kept : SameAnswer Eq (tag.flag attributeName) (other.flag attributeName) := by
  unfold Tag.flag Tag.malformed
  rw [h.name]
  rcases (h.optional_kept hkept).eq_or_faults with heq | ⟨fault, fault', hfault, hfault', hkind⟩
  · rw [heq]
    exact .refl _
  · rw [hfault, hfault']
    exact .error hkind

/-- A number that may not be replaced is kept. -/
theorem number_kept : SameAnswer Eq (tag.number attributeName) (other.number attributeName) := by
  unfold Tag.number Tag.malformed
  rw [h.name]
  rcases (h.optional_kept hkept).eq_or_faults with heq | ⟨fault, fault', hfault, hfault', hkind⟩
  · rw [heq]
    exact .refl _
  · rw [hfault, hfault']
    exact .error hkind

/-- A time in seconds that may not be replaced is kept. -/
theorem seconds_kept : SameAnswer Eq (tag.seconds attributeName) (other.seconds attributeName) := by
  unfold Tag.seconds Tag.malformed
  rw [h.name]
  rcases (h.number_kept hkept).eq_or_faults with heq | ⟨fault, fault', hfault, hfault', hkind⟩
  · rw [heq]
    exact .refl _
  · rw [hfault, hfault']
    exact .error hkind

end kept

end Tag.Alike

/-- Two results of a handler: the same state, and records of the same tests. -/
def SameRecords {σ : Type} (result other : σ × List Effect) : Prop :=
  other.1 = result.1 ∧ ∀ map, effectEntries map other.2 = effectEntries map result.2

/-- Two answers of a handler: it accepts both tags with the same results, or refuses both with the same kind of
fault and leaves the same. -/
inductive SameHandling {σ : Type} :
    Except (TagRefusal σ) (σ × List Effect) → Except (TagRefusal σ) (σ × List Effect) → Prop where
  | accepted {result other : σ × List Effect} (h : SameRecords result other) : SameHandling (.ok result) (.ok other)
  | refused {refusal other : TagRefusal σ} (hkind : other.fault.kind = refusal.fault.kind)
      (hleft : other.left = refusal.left) : SameHandling (.error refusal) (.error other)

/-- What a handler makes of a tag does not depend on what may be replaced in it. -/
def Handler.Ignores {σ : Type} (handler : Handler σ) (may : Replacement) (name : String) : Prop :=
  ∀ (tag other : Tag) (state : σ), tag.name = name → tag.Alike may other →
    SameHandling (handler tag state) (handler other state)

/-- A handler that reads before it changes anything ignores what its reading ignores. -/
theorem Handler.reading_ignores {σ : Type} {read : Tag → σ → Except TagFault (σ × List Effect)} {may : Replacement}
    {name : String} (h : ∀ (tag other : Tag) (state : σ), tag.name = name → tag.Alike may other →
      SameAnswer SameRecords (read tag state) (read other state)) : (Handler.reading read).Ignores may name := by
  intro tag other state hname halike
  have hanswer := h tag other state hname halike
  unfold Handler.reading
  generalize read tag state = answer, read other state = answer' at hanswer ⊢
  cases hanswer with
  | ok hresult => exact .accepted hresult
  | error hkind => exact .refused hkind rfl

/-- Every answer comes to the same as itself. -/
theorem same_records_refl {σ : Type} (x : Except TagFault (σ × List Effect)) : SameAnswer SameRecords x x :=
  (SameAnswer.refl x).imp fun result other heq => by
    subst heq
    exact ⟨rfl, fun map => rfl⟩

section handlers

variable {tag other : Tag}

/-- The names of a tag and of an attribute tell that no value may be replaced. -/
theorem kept_of_not_mem {tagName attributeName : String} (hname : tag.name = tagName)
    (h : (tagName, attributeName) ∉ testNames ∧ (tagName, attributeName) ∉ assemblyPaths) (text text' : String) :
    ¬ Renaming tag.name attributeName text text' := by
  rw [hname]
  rintro (⟨hmem, -⟩ | ⟨hmem, -⟩)
  · exact h.1 hmem
  · exact h.2 hmem

/-- A test under another name is looked up alike, whatever its name stands behind. -/
theorem qualified_name_renamed {tagName attributeName text text' : String} (hname : tag.name = tagName)
    (h : text' = text ∨ Renaming tag.name attributeName text text') (hpath : (tagName, attributeName) ∉ assemblyPaths)
    (front : String) (hfront : ∀ c ∈ front.toList.getLast?, Text.isBlank c = false) (qualifier : Option String) :
    qualifiedName qualifier (front ++ text') = qualifiedName qualifier (front ++ text) := by
  rw [hname] at h
  rcases h with rfl | ⟨-, h⟩ | ⟨hmem, -⟩
  · rfl
  · exact h.qualified_name hfront qualifier
  · exact absurd hmem hpath

/-- The path of an assembly is only renamed in ways that keep its qualifier. -/
theorem assembly_qualifier_renamed {tagName attributeName text text' : String} (hname : tag.name = tagName)
    (h : text' = text ∨ Renaming tag.name attributeName text text') (htest : (tagName, attributeName) ∉ testNames) :
    assemblyQualifier text' = assemblyQualifier text := by
  rw [hname] at h
  rcases h with rfl | ⟨hmem, -⟩ | ⟨-, h⟩
  · rfl
  · exact absurd hmem htest
  · exact h.qualifier

/-- Renamings make no difference to an assembly of xUnit. -/
theorem XUnit.assembly_ignores : Handler.Ignores XUnit.assembly Renaming "assembly" := by
  refine Handler.reading_ignores fun tag other state hname halike => ?_
  refine (halike.required "name").bind fun path path' hpath => ?_
  exact .ok ⟨congrArg some (assembly_qualifier_renamed hname hpath (by decide)), fun map => rfl⟩

/-- A test under another name is looked up alike. -/
theorem lookup_renamed {tagName attributeName text text' : String} (hname : tag.name = tagName)
    (h : text' = text ∨ Renaming tag.name attributeName text text') (hpath : (tagName, attributeName) ∉ assemblyPaths)
    (qualifier : Option String) : qualifiedName qualifier text' = qualifiedName qualifier text := by
  have hlookup := qualified_name_renamed hname h hpath "" (by simp) qualifier
  rwa [String.empty_append, String.empty_append] at hlookup

/-- Renamings make no difference to a test of xUnit. -/
theorem XUnit.test_ignores : Handler.Ignores XUnit.test Renaming "test" := by
  refine Handler.reading_ignores fun tag other state hname halike => ?_
  refine (halike.required_kept (kept_of_not_mem hname (by decide))).bind ?_
  rintro result _ rfl
  refine (halike.seconds_kept (kept_of_not_mem hname (by decide))).bind ?_
  rintro duration _ rfl
  refine (halike.required "name").bind fun test test' htest => ?_
  rw [lookup_renamed hname htest (by decide) state, Tag.malformed, Tag.malformed, halike.name]
  exact same_records_refl _

/-- Renamings make no difference to a suite of NUnit. -/
theorem NUnit.suite_ignores : Handler.Ignores NUnit.suite Renaming "test-suite" := by
  refine Handler.reading_ignores fun tag other state hname halike => ?_
  refine (halike.optional_kept (kept_of_not_mem hname (by decide))).bind ?_
  rintro kind _ rfl
  split
  · refine (halike.required "name").bind fun path path' hpath => ?_
    exact .ok ⟨congrArg some (assembly_qualifier_renamed hname hpath (by decide)), fun map => rfl⟩
  · exact .ok ⟨rfl, fun map => rfl⟩

/-- The name of a test case is looked up alike, be it the full name or the other one. -/
theorem NUnit.case_name_renamed (hname : tag.name = "test-case") (h : tag.Alike Renaming other)
    (qualifier : Option String) :
    SameAnswer (fun test test' => qualifiedName qualifier test' = qualifiedName qualifier test)
      (NUnit.caseName tag) (NUnit.caseName other) := by
  refine (h.optional "fullname").bind fun fullName fullName' hfull => ?_
  cases hfull with
  | some hfull => exact .ok (lookup_renamed hname hfull (by decide) qualifier)
  | none => exact (h.required "name").imp fun test test' htest => lookup_renamed hname htest (by decide) qualifier

/-- Renamings keep the duration of a case of NUnit. -/
theorem NUnit.case_duration_kept (hname : tag.name = "test-case") (h : tag.Alike Renaming other) :
    SameAnswer Eq (NUnit.caseDuration tag) (NUnit.caseDuration other) := by
  refine (h.seconds_kept (kept_of_not_mem hname (by decide))).bind ?_
  rintro duration _ rfl
  cases duration with
  | some duration => exact .refl _
  | none => exact h.seconds_kept (kept_of_not_mem hname (by decide))

/-- Renamings make no difference to a case of NUnit. -/
theorem NUnit.case_ignores : Handler.Ignores NUnit.case Renaming "test-case" := by
  refine Handler.reading_ignores fun tag other state hname halike => ?_
  refine (NUnit.case_name_renamed hname halike state).bind fun test test' htest => ?_
  refine (halike.required_kept (kept_of_not_mem hname (by decide))).bind ?_
  rintro result _ rfl
  refine (halike.optional_kept (kept_of_not_mem hname (by decide))).bind ?_
  rintro label _ rfl
  refine (halike.flag_kept (kept_of_not_mem hname (by decide))).bind ?_
  rintro executed _ rfl
  refine (NUnit.case_duration_kept hname halike).bind ?_
  rintro duration _ rfl
  rw [htest, Tag.malformed, Tag.malformed, halike.name]
  exact same_records_refl _

/-- Renamings keep the duration of a result of VSTest. -/
theorem VSTest.result_duration_kept (hname : tag.name = "UnitTestResult") (h : tag.Alike Renaming other) :
    SameAnswer Eq (VSTest.resultDuration tag) (VSTest.resultDuration other) := by
  refine (h.optional_kept (kept_of_not_mem hname (by decide))).bind ?_
  rintro found _ rfl
  simp only [Tag.malformed, h.name]
  exact .refl _

/-- Renamings make no difference to a result of VSTest. -/
theorem VSTest.result_ignores : Handler.Ignores VSTest.result Renaming "UnitTestResult" := by
  refine Handler.reading_ignores fun tag other state hname halike => ?_
  refine (halike.required_kept (kept_of_not_mem hname (by decide))).bind ?_
  rintro id _ rfl
  refine (halike.required_kept (kept_of_not_mem hname (by decide))).bind ?_
  rintro word _ rfl
  rw [Tag.malformed, Tag.malformed, halike.name]
  cases VSTest.outcome? word with
  | none => exact .error rfl
  | some outcome =>
      refine (VSTest.result_duration_kept hname halike).bind ?_
      rintro duration _ rfl
      exact same_records_refl _

/-- Renamings make no difference to a test of VSTest. -/
theorem VSTest.unit_test_ignores : Handler.Ignores VSTest.unitTest Renaming "UnitTest" := by
  refine Handler.reading_ignores fun tag other state hname halike => ?_
  refine (halike.required_kept (kept_of_not_mem hname (by decide))).bind ?_
  rintro id _ rfl
  exact same_records_refl _

/-- A method names its test alike: the class and the assembly stand in front of its own name. -/
theorem VSTest.method_name_renamed (hname : tag.name = "TestMethod") (h : tag.Alike Renaming other) :
    SameAnswer Eq (VSTest.methodName tag) (VSTest.methodName other) := by
  refine (h.required_kept (kept_of_not_mem hname (by decide))).bind ?_
  rintro className _ rfl
  refine (h.required "name").bind fun method method' hmethod => ?_
  generalize VSTest.classParts className = parts
  obtain ⟨typeName, assembly⟩ := parts
  refine (h.optional "codeBase").bind fun codeBase codeBase' hcodeBase => ?_
  -- The class and a point stand in front of the name of the method.
  have hfront : ∀ c ∈ (typeName ++ ".").toList.getLast?, Text.isBlank c = false := by
    intro c hc
    obtain rfl : '.' = c := by simpa [String.toList_append] using hc
    decide
  simp only [qualified_name_renamed hname hmethod (by decide) (typeName ++ ".") hfront]
  cases hcodeBase with
  | none => exact .refl _
  | some hpath =>
      simp only [assembly_qualifier_renamed hname hpath (by decide)]
      exact .refl _

/-- Renamings make no difference to a test method of VSTest. -/
theorem VSTest.test_method_ignores : Handler.Ignores VSTest.testMethod Renaming "TestMethod" := by
  intro tag other state hname halike
  unfold VSTest.testMethod
  cases state.currentId with
  | none => exact .accepted ⟨rfl, fun map => rfl⟩
  | some id =>
      have hanswer := VSTest.method_name_renamed hname halike
      simp only
      generalize VSTest.methodName tag = answer, VSTest.methodName other = answer' at hanswer ⊢
      cases hanswer with
      | ok hnames =>
          subst hnames
          exact .accepted ⟨rfl, fun map => rfl⟩
      | error hkind => exact .refused hkind rfl

end handlers

section runs

variable {σ : Type} {rules : Rules σ} {may : Replacement}

/-- What two documents amount to: the same state, the same records, and faults of the same kind. -/
structure Trace.Alike (trace other : Trace σ) : Prop where
  state : other.state = trace.state
  records : ∀ map, effectEntries map other.effects = effectEntries map trace.effects
  fault : other.fault.map ReportFault.kind = trace.fault.map ReportFault.kind

/-- What documents amount to stays alike behind tags with the same records. -/
theorem Trace.Alike.behind {trace other : Trace σ} (h : trace.Alike other) {effects effects' : List Effect}
    (hrecords : ∀ map, effectEntries map effects' = effectEntries map effects) :
    (trace.behind effects).Alike (other.behind effects') where
  state := h.state
  records map := by
    unfold Trace.behind
    rw [Rules.effect_entries_append, Rules.effect_entries_append, hrecords, h.records]
  fault := h.fault

/-- Handlers that ignore what may be replaced make the same of documents in which it is replaced. -/
theorem Rules.follow_ignores (hhandlers : ∀ entry ∈ rules.handlers, entry.2.Ignores may entry.1)
    {ending ending' : Except ReportFault Unit}
    (hending : ending'.mapError ReportFault.kind = ending.mapError ReportFault.kind) {tags tags' : List Tag}
    (htags : List.Forall₂ (Tag.Alike may) tags tags') (sawRoot : Bool) (state : σ) :
    (rules.follow ending sawRoot state tags).Alike (rules.follow ending' sawRoot state tags') := by
  induction htags generalizing sawRoot state with
  | nil =>
      unfold follow
      cases ending with
      | ok done =>
          cases ending' with
          | ok done' => exact ⟨rfl, fun map => rfl, rfl⟩
          | error fault' => cases hending
      | error fault =>
          cases ending' with
          | ok done' => cases hending
          | error fault' => exact ⟨rfl, fun map => rfl, congrArg some (Except.error.inj hending)⟩
  | @cons tag other tags tags' halike _ ih =>
      unfold follow
      rw [halike.name, halike.depth]
      split
      · exact ⟨rfl, fun map => rfl, rfl⟩
      · cases hhandler : rules.handler? tag.name with
        | none => exact ih _ _
        | some handler =>
            have hanswer : SameHandling (handler tag state) (handler other state) :=
              hhandlers _ (handler_mem hhandler) tag other state rfl halike
            simp only
            generalize handler tag state = answer, handler other state = answer' at hanswer ⊢
            cases hanswer with
            | @refused refusal refusal' hkind hleft =>
                simp only [TagRefusal.trace, hleft]
                exact ⟨rfl, fun map => rfl, congrArg (fun kind => some (ReportFault.tag 0 kind)) hkind⟩
            | @accepted result result' hresult =>
                obtain ⟨after, effects⟩ := result
                obtain ⟨after', effects'⟩ := result'
                obtain ⟨hstate, hrecords⟩ := hresult
                obtain rfl : after' = after := hstate
                exact (ih (sawRoot || tag.depth == 0) after').behind hrecords

/-- What is settled in the end is settled alike. -/
theorem VSTest.settle_alike {trace other : Trace VSTest.State} (h : trace.Alike other) :
    (VSTest.settle trace).Alike (VSTest.settle other) := by
  obtain ⟨hstate, hrecords, hfault⟩ := h
  unfold VSTest.settle
  rw [hstate]
  cases hnone : trace.fault with
  | some fault =>
      obtain ⟨fault', hfault', -⟩ := Option.map_eq_some_iff.mp (hfault.trans (congrArg _ hnone))
      rw [hfault']
      exact ⟨hstate, hrecords, hfault⟩
  | none =>
      rw [Option.map_eq_none_iff.mp (hfault.trans (congrArg _ hnone))]
      simp only
      split
      · exact ⟨rfl, hrecords, rfl⟩
      · refine ⟨rfl, fun map => ?_, rfl⟩
        have hbefore := hrecords map
        unfold effectEntries at hbefore ⊢
        rw [List.filterMap_append, List.filterMap_append, hbefore]

end runs

/-- What two reports amount to is parsed into the same table, or with the same kind of fault. -/
theorem Account.add_alike {account other : Account}
    (hrecords : ∀ map, effectEntries map other.effects = effectEntries map account.effects)
    (hfault : other.fault.map ReportFault.kind = account.fault.map ReportFault.kind) (path : Path) (map : MethodMap)
    (table : Table) (before : List Event) :
    let parsed := account.addTo path map table before
    let parsed' := other.addTo path map table before
    parsed'.table = parsed.table ∧ parsed'.failure.map (fun error => (error.path, error.fault.kind)) =
      parsed.failure.map fun error => (error.path, error.fault.kind) := by
  refine ⟨congrArg table.addEntries (hrecords map), ?_⟩
  have hpath := congrArg (Option.map fun kind => (path, kind)) hfault
  simpa only [Account.addTo, Option.map_map, Function.comp_def] using hpath

/-- Take a document and another one in which, in any of its tags, names of tests have other argument lists and
assemblies have other directories, separators or extensions. In every dialect, with every method map and into every
table, both are parsed into the same table, and with the same kind of fault, if with any. -/
theorem renamed_tests_parse_alike {document document' : List UInt8} (h : Xml.Rewritten Renaming document document')
    (dialect : Dialect) (path : Path) (map : MethodMap) (table : Table) :
    let parsed := dialect.parse path document map table
    let parsed' := dialect.parse path document' map table
    parsed'.table = parsed.table ∧ parsed'.failure.map (fun error => (error.path, error.fault.kind)) =
      parsed.failure.map fun error => (error.path, error.fault.kind) := by
  obtain ⟨htags, hending⟩ := Reading.of_rewritten h
  unfold Dialect.parse
  generalize Reading.ofBytes document = reading, Reading.ofBytes document' = reading' at htags hending ⊢
  cases dialect with
  | xunit =>
      have hhandlers : ∀ entry ∈ XUnit.rules.handlers, entry.2.Ignores Renaming entry.1 :=
        List.forall_mem_cons.mpr ⟨XUnit.assembly_ignores, List.forall_mem_singleton.mpr XUnit.test_ignores⟩
      have htrace := Rules.follow_ignores hhandlers hending htags false none
      exact Account.add_alike htrace.records htrace.fault path map table _
  | nunit =>
      have hhandlers : ∀ entry ∈ NUnit.rules.handlers, entry.2.Ignores Renaming entry.1 :=
        List.forall_mem_cons.mpr ⟨NUnit.suite_ignores, List.forall_mem_singleton.mpr NUnit.case_ignores⟩
      have htrace := Rules.follow_ignores hhandlers hending htags false none
      exact Account.add_alike htrace.records htrace.fault path map table _
  | vstest =>
      have hhandlers : ∀ entry ∈ VSTest.rules.handlers, entry.2.Ignores Renaming entry.1 := by
        refine List.forall_mem_cons.mpr ⟨VSTest.result_ignores, List.forall_mem_cons.mpr ?_⟩
        exact ⟨VSTest.unit_test_ignores, List.forall_mem_singleton.mpr VSTest.test_method_ignores⟩
      have htrace := VSTest.settle_alike (Rules.follow_ignores hhandlers hending htags false VSTest.State.initial)
      exact Account.add_alike htrace.records htrace.fault path map table _

/-- An attribute behind one blank, without white space around its equals sign. -/
def plainFront (key : List UInt8) (h : key ≠ [] ∧ (∀ b ∈ key, isSpace b = false) ∧ byte '=' ∉ key.tail) :
    AttributeFront :=
  ⟨[0x20], key, [], [], by simp [isSpace], h.1, h.2.1, h.2.2, by simp, by simp⟩

/-- What stands in the tag of an assembly. -/
def suiteContent (path : QuotedValue) : List UInt8 :=
  Text.Utf8.encode "test-suite" ++ (plainFront (Text.Utf8.encode "type") (by decide +kernel)).bytes
    ⟨byte '"', Text.Utf8.encode "Assembly", by decide, by decide⟩
    ((plainFront (Text.Utf8.encode "name") (by decide +kernel)).bytes path [])

/-- What stands in the tag of a test case that passed. -/
def caseContent (test : QuotedValue) : List UInt8 :=
  Text.Utf8.encode "test-case" ++ (plainFront (Text.Utf8.encode "fullname") (by decide +kernel)).bytes test
    (Text.Utf8.encode " result='Passed'")

/-- A report of one test case. -/
def caseReport (path test : QuotedValue) : List UInt8 :=
  byte '<' :: (Text.Utf8.encode "test-run>" ++ ([] ++ byte '<' :: ((suiteContent path ++ [byte '>']) ++
    ([] ++ byte '<' :: ((caseContent test ++ [byte '/', byte '>']) ++
      Text.Utf8.encode "</test-suite></test-run>")))))

/-- A value in double quotes. -/
def inQuotes (value : String) (h : byte '"' ∉ Text.Utf8.encode value) : QuotedValue :=
  ⟨byte '"', Text.Utf8.encode value, .inl rfl, h⟩

/-- A report from one machine. -/
def windowsReport : List UInt8 :=
  caseReport (inQuotes "C:\\build\\Calc.Tests.dll" (by decide)) (inQuotes "Sum.Adds (1, &quot;)&quot;)" (by decide))

/-- The report of the same test from another machine, where it has other arguments. -/
def linuxReport : List UInt8 :=
  caseReport (inQuotes "/opt/build/Calc.Tests.exe" (by decide)) (inQuotes "Sum.Adds (é" (by decide))

/-- The reports of one test from two machines are charged alike. -/
theorem machine_reports_alike :
    let map := MethodMap.ofList [("Calc.Tests.Sum.Adds", ⟨"Sum.cs"⟩)]
    let windows := Dialect.nunit.parse ⟨"n.xml"⟩ windowsReport map .empty
    let linux := Dialect.nunit.parse ⟨"n.xml"⟩ linuxReport map .empty
    Xml.Rewritten Renaming windowsReport linuxReport ∧ linux.table = windows.table ∧
      linux.failure.map (fun error => (error.path, error.fault.kind)) =
        windows.failure.map (fun error => (error.path, error.fault.kind)) ∧
      windows.failure = none ∧ windows.table.file? ⟨"Sum.cs"⟩ = some (Counts.ofRecord ⟨.passed, none⟩) := by
  intro map windows linux
  have hpath : Xml.ReplacedValue (Renaming "test-suite") (Text.Utf8.encode "name")
      (Text.Utf8.encode "C:\\build\\Calc.Tests.dll") (Text.Utf8.encode "/opt/build/Calc.Tests.exe") := by
    refine ⟨"name", "C:\\build\\" ++ ("Calc.Tests" ++ "." ++ "dll"), "/opt/build/" ++ ("Calc.Tests" ++ "." ++ "exe"),
      rfl, by decide +kernel, by decide +kernel, .inr ⟨by decide, ?_⟩⟩
    exact .extension (by decide) (by decide) (by decide) ⟨_, rfl, by simp, by decide, by decide⟩
      ⟨_, rfl, by simp, by decide, by decide⟩
  have htest : Xml.ReplacedValue (Renaming "test-case") (Text.Utf8.encode "fullname")
      (Text.Utf8.encode "Sum.Adds (1, &quot;)&quot;)") (Text.Utf8.encode "Sum.Adds (é") := by
    refine ⟨"fullname", "Sum.Adds " ++ "(" ++ "1, \")\")", "Sum.Adds " ++ "(" ++ "é", rfl, by decide +kernel,
      by decide +kernel, .inl ⟨by decide, .changed _ _ _⟩⟩
  have hsuite : Xml.RewrittenContent Renaming
      (suiteContent (inQuotes "C:\\build\\Calc.Tests.dll" (by decide)))
      (suiteContent (inQuotes "/opt/build/Calc.Tests.exe" (by decide))) := by
    refine .named (by decide +kernel) (by decide +kernel) (.keep _ _ (.replace _ ?_ (.same _)))
    exact hpath
  have hcase : Xml.RewrittenContent Renaming
      (caseContent (inQuotes "Sum.Adds (1, &quot;)&quot;)" (by decide)))
      (caseContent (inQuotes "Sum.Adds (é" (by decide))) := by
    refine .named (by decide +kernel) (by decide +kernel) (.replace _ ?_ (.same _))
    exact htest
  have hrewritten : Xml.Rewritten Renaming windowsReport linuxReport :=
    @Xml.Rewritten.keep Renaming [] _ _ _ _ (by simp) rfl <|
      .replace (by simp) rfl rfl (.opening hsuite) (.replace (by simp) rfl rfl (.empty hcase) (.same _))
  obtain ⟨htable, hfailure⟩ := renamed_tests_parse_alike hrewritten .nunit ⟨"n.xml"⟩ map .empty
  exact ⟨hrewritten, htable, hfailure, by decide +kernel, by decide +kernel⟩

end TestMeasures
