import TestMeasures.Proofs.TestAccounts

/-!
# Test definitions of a Visual Studio report

A test is defined by a `UnitTest` tag with a `TestMethod` tag directly behind it, other tags left
out (`VSTest.testMethods`). `VSTest.steps_define` follows the rules through a document and finds
exactly these definitions. `VSTest.apply_complete_iff` says when a document is read to its end, and
`VSTest.resolve_error_iff` which result is the first that nothing defines.
-/

namespace TestMeasures

namespace Rules

variable {σ : Type} {rules : Rules σ}

/-- Every tag of a run that has a handler was accepted by it. -/
theorem Steps.accepted {state final : σ} {tags : List Tag} {effects : List Effect}
    (h : rules.Steps state tags effects final) {tag : Tag} (htag : tag ∈ tags) {handler : Handler σ}
    (hhandler : rules.handler? tag.name = some handler) :
    ∃ before after, handler tag before = .ok after := by
  induction h with
  | nil => cases htag
  | ignore hnone _ ih =>
      rcases List.mem_cons.mp htag with rfl | htag
      · rw [hnone] at hhandler
        cases hhandler
      · exact ih htag
  | handle hsome hstep _ ih =>
      rcases List.mem_cons.mp htag with rfl | htag
      · obtain rfl := Option.some.inj (hsome.symm.trans hhandler)
        exact ⟨_, _, hstep⟩
      · exact ih htag

end Rules

/-- What stands in the first of two related lists is related to something in the second. -/
theorem forall₂_left {α β : Type} {relates : α → β → Prop} {items : List α} {others : List β}
    (h : List.Forall₂ relates items others) :
    ∀ item ∈ items, ∃ other ∈ others, relates item other := by
  induction h with
  | nil => simp
  | cons hhead _ ih =>
      refine List.forall_mem_cons.mpr ⟨⟨_, List.mem_cons_self, hhead⟩, fun item hitem => ?_⟩
      obtain ⟨other, hother, hrelates⟩ := ih item hitem
      exact ⟨other, List.mem_cons_of_mem _ hother, hrelates⟩

/-- Among some items, one has a property and all before it have another. -/
def FirstSuch {α : Type} (found passed : α → Prop) (items : List α) : Prop :=
  ∃ before item after,
    items = before ++ item :: after ∧ found item ∧ ∀ earlier ∈ before, passed earlier

namespace FirstSuch

variable {α β : Type} {found passed : α → Prop} {found' passed' : β → Prop}

/-- There is no first such item among none. -/
theorem nil_iff : FirstSuch found passed [] ↔ False := by
  simp [FirstSuch]

/-- The first such item is the head, or the first such one behind a head that is passed. -/
theorem cons_iff {item : α} {items : List α} :
    FirstSuch found passed (item :: items) ↔
      found item ∨ passed item ∧ FirstSuch found passed items := by
  constructor
  · rintro ⟨before, other, after, heq, hfound, hpassed⟩
    cases before with
    | nil =>
        obtain ⟨rfl, -⟩ := List.cons.inj heq
        exact .inl hfound
    | cons head before =>
        obtain ⟨rfl, rfl⟩ := List.cons.inj heq
        exact .inr ⟨hpassed item (by simp), before, other, after, rfl, hfound,
          fun earlier h => hpassed earlier (by simp [h])⟩
  · rintro (hfound | ⟨hhead, before, other, after, rfl, hfound, hpassed⟩)
    · exact ⟨[], item, items, rfl, hfound, by simp⟩
    · exact ⟨item :: before, other, after, rfl, hfound, List.forall_mem_cons.mpr ⟨hhead, hpassed⟩⟩

/-- Items that have the same properties one by one have the same first. -/
theorem congr {relates : α → β → Prop} {items : List α} {others : List β}
    (h : List.Forall₂ relates items others) (hfound : ∀ a b, relates a b → (found a ↔ found' b))
    (hpassed : ∀ a b, relates a b → (passed a ↔ passed' b)) :
    FirstSuch found passed items ↔ FirstSuch found' passed' others := by
  induction h with
  | nil => simp only [nil_iff]
  | cons hhead _ ih => rw [cons_iff, cons_iff, hfound _ _ hhead, hpassed _ _ hhead, ih]

end FirstSuch

namespace VSTest

/-- The tags that results stand in. -/
def resultTags (tags : List Tag) : List Tag :=
  tags.filter (·.name == "UnitTestResult")

/-- The tags that definitions are made of. -/
def definitionTags (tags : List Tag) : List Tag :=
  tags.filter fun tag => tag.name == "UnitTest" || tag.name == "TestMethod"

/-- The tests that definition tags define: each `UnitTest` with the `TestMethod` right behind it. -/
def testMethods : List Tag → List (Tag × Tag)
  | test :: method :: rest =>
    if test.name = "UnitTest" ∧ method.name = "TestMethod" then (test, method) :: testMethods rest
    else testMethods (method :: rest)
  | _ => []

/-- The qualified name that a method tag gives. -/
def Names (method : Tag) (name : String) : Prop :=
  ∃ className methodName codeBase, method.required "className" = .ok className ∧
    method.required "name" = .ok methodName ∧ method.optional "codeBase" = .ok codeBase ∧
    name = qualifiedName (match codeBase with
        | some path => some (assemblyQualifier path)
        | none => (classParts className).2) ((classParts className).1 ++ "." ++ methodName)

/-- The test id and the qualified name of a defined test. -/
def Defines (test : Tag × Tag) (definition : String × String) : Prop :=
  test.1.required "id" = .ok definition.1 ∧ Names test.2 definition.2

/-- Every tag that matters can be used: results have an id, a known outcome and a duration that can
be read if they have any, tests have an id, and methods have a name. -/
structure Valid (tags : List Tag) : Prop where
  results : ∀ tag ∈ resultTags tags, ∃ result, Keeps tag result
  tests : ∀ tag ∈ definitionTags tags, tag.name = "UnitTest" → ∃ id, tag.required "id" = .ok id
  methods : ∀ test ∈ testMethods (definitionTags tags), ∃ name, Names test.2 name

/-- Some tags define a test id. -/
def Defined (tags : List Tag) (id : String) : Prop :=
  ∃ test ∈ testMethods (definitionTags tags), test.1.required "id" = .ok id

/-- The last definition of a test id gives it a name. -/
def LastDefinition (tags : List Tag) (id name : String) : Prop :=
  FirstSuch (Defines · (id, name)) (fun later => later.1.required "id" ≠ .ok id)
    (testMethods (definitionTags tags)).reverse

/-- The first result, in document order, whose test id nothing defines. -/
def FirstDangling (tags : List Tag) (id : String) : Prop :=
  FirstSuch (fun result => result.required "testId" = .ok id ∧ ¬ Defined tags id)
    (fun earlier => ∃ known, earlier.required "testId" = .ok known ∧ Defined tags known)
    (resultTags tags)

section handlers

variable {tag : Tag} {state after : State} {effects : List Effect}

/-- Results are handled as results. -/
theorem handler_result : rules.handler? "UnitTestResult" = some result := rfl

/-- Unit tests are handled as unit tests. -/
theorem handler_unit_test : rules.handler? "UnitTest" = some unitTest := rfl

/-- A result is kept, or refused. -/
theorem result_ok_iff : result tag state = .ok (after, effects) ↔
    ∃ kept, Keeps tag kept ∧
      after = { state with pending := state.pending ++ [kept] } ∧ effects = [] := by
  constructor
  · intro h
    obtain ⟨id, hid, h⟩ := except_bind_ok.mp (Handler.reading_ok_iff.mp h)
    obtain ⟨word, hword, h⟩ := except_bind_ok.mp h
    cases houtcome : outcome? word with
    | none => simp [houtcome] at h
    | some outcome =>
        simp only [houtcome] at h
        obtain ⟨duration, hduration, h⟩ := except_bind_ok.mp h
        cases h
        exact ⟨(id, ⟨outcome, duration⟩), ⟨word, hid, hword, houtcome, hduration⟩, rfl, rfl⟩
  · rintro ⟨⟨id, ⟨outcome, duration⟩⟩, ⟨word, hid, hword, houtcome, hduration⟩, rfl, rfl⟩
    simp only at hid houtcome hduration
    refine Handler.reading_ok_iff.mpr ?_
    simp only [hid, hword, houtcome, hduration, bind, Except.bind]
    rfl

/-- A unit test is accepted exactly when it has an id, which becomes the current one. -/
theorem unit_test_ok_iff : unitTest tag state = .ok (after, effects) ↔
    ∃ id, tag.required "id" = .ok id ∧
      after = { state with currentId := some id } ∧ effects = [] := by
  unfold unitTest
  rw [Handler.reading_ok_iff, except_bind_ok]
  simp only [pure, Except.pure, Except.ok.injEq, Prod.mk.injEq, eq_comm]

/-- A method gives its test the name that its attributes make up. -/
theorem method_name_ok_iff {name : String} : methodName tag = .ok name ↔ Names tag name := by
  constructor
  · intro h
    obtain ⟨className, hclass, h⟩ := except_bind_ok.mp h
    obtain ⟨method, hname, h⟩ := except_bind_ok.mp h
    obtain ⟨codeBase, hbase, h⟩ := except_bind_ok.mp h
    cases h
    exact ⟨className, method, codeBase, hclass, hname, hbase, rfl⟩
  · rintro ⟨className, method, codeBase, hclass, hname, hbase, rfl⟩
    simp only [methodName, hclass, hname, hbase, bind, Except.bind]
    rfl

/-- A method defines the test that is open. -/
theorem test_method_ok_iff {id : String} (hid : state.currentId = some id) :
    (∃ effects, testMethod tag state = .ok (after, effects)) ↔
      ∃ name, Names tag name ∧ after = ⟨state.pending, (id, name) :: state.definitions, none⟩ := by
  unfold testMethod
  simp only [hid, ← method_name_ok_iff]
  cases methodName tag <;> simp [eq_comm]

end handlers

section testMethods

variable {test tag method : Tag} {rest : List Tag}

/-- A tag that is no unit test defines nothing with the next one. -/
theorem test_methods_of_no_test (h : tag.name ≠ "UnitTest") :
    testMethods (tag :: rest) = testMethods rest := by
  cases rest <;> simp [testMethods, h]

/-- A unit test defines nothing with a tag that is no test method. -/
theorem test_methods_of_no_method (h : tag.name ≠ "TestMethod") :
    testMethods (test :: tag :: rest) = testMethods (tag :: rest) := by
  simp [testMethods, h]

/-- A unit test and the test method behind it are a definition. -/
theorem test_methods_of_pair (htest : test.name = "UnitTest")
    (hmethod : method.name = "TestMethod") :
    testMethods (test :: method :: rest) = (test, method) :: testMethods rest := by
  simp [testMethods, htest, hmethod]

end testMethods

/-- The definition tags of tags and others are those of the first and those of the others. -/
theorem definition_tags_append (tags others : List Tag) :
    definitionTags (tags ++ others) = definitionTags tags ++ definitionTags others :=
  List.filter_append tags others

/-- Unit tests and test methods are definition tags. -/
theorem mem_definition_tags {tags : List Tag} {tag : Tag} (htag : tag ∈ tags)
    (hname : tag.name = "UnitTest" ∨ tag.name = "TestMethod") : tag ∈ definitionTags tags :=
  List.mem_filter.mpr ⟨htag, by simpa using hname⟩

/-- The tag that opened the test whose method has not been read. -/
inductive Opened : Option Tag → Option String → Prop where
  | none : Opened none none
  | test {tag : Tag} {id : String} (hname : tag.name = "UnitTest")
      (hid : tag.required "id" = .ok id) :
      Opened (some tag) (some id)

/-- Tags that lead from one state to another have defined tests: these come next in the definitions
of any document that goes on from there. -/
def LeadsTo (opened : Option Tag) (state : State) (tags : List Tag) (final : State) : Prop :=
  ∃ tests definitions still, Opened still final.currentId ∧
    List.Forall₂ Defines tests definitions ∧
    final.definitions = definitions.reverse ++ state.definitions ∧
    ∀ more, testMethods (opened.toList ++ (definitionTags tags ++ more)) =
      tests ++ testMethods (still.toList ++ more)

namespace LeadsTo

variable {opened : Option Tag} {state after final : State} {tag opening : Tag} {tags : List Tag}
    {id name : String}

/-- No tags lead from a state to itself. -/
theorem nil (h : Opened opened state.currentId) : LeadsTo opened state [] state :=
  ⟨[], [], opened, h, .nil, rfl, fun _ => rfl⟩

/-- A tag that is no part of a definition changes nothing about definitions. -/
theorem other (htest : tag.name ≠ "UnitTest") (hmethod : tag.name ≠ "TestMethod")
    (hsame : after.definitions = state.definitions) (h : LeadsTo opened after tags final) :
    LeadsTo opened state (tag :: tags) final := by
  have htags : definitionTags (tag :: tags) = definitionTags tags :=
    List.filter_cons_of_neg (by simp [htest, hmethod])
  unfold LeadsTo at h ⊢
  rwa [htags, ← hsame]

/-- A test that was open before stays without a method when the next one opens. -/
theorem test (hname : tag.name = "UnitTest") (hsame : after.definitions = state.definitions)
    (h : LeadsTo (some tag) after tags final) : LeadsTo opened state (tag :: tags) final := by
  obtain ⟨tests, definitions, still, hstill, hdefines, hfinal, htests⟩ := h
  refine ⟨tests, definitions, still, hstill, hdefines, hsame ▸ hfinal, fun more => ?_⟩
  have htags : definitionTags (tag :: tags) = tag :: definitionTags tags :=
    List.filter_cons_of_pos (by simp [hname])
  rw [htags, ← htests more]
  cases opened with
  | none => rfl
  | some opening => exact test_methods_of_no_method (by simp [hname])

/-- A method outside of a test defines nothing. -/
theorem stray (hname : tag.name = "TestMethod") (h : LeadsTo none state tags final) :
    LeadsTo none state (tag :: tags) final := by
  obtain ⟨tests, definitions, still, hstill, hdefines, hfinal, htests⟩ := h
  refine ⟨tests, definitions, still, hstill, hdefines, hfinal, fun more => ?_⟩
  have htags : definitionTags (tag :: tags) = tag :: definitionTags tags :=
    List.filter_cons_of_pos (by simp [hname])
  rw [htags, ← htests more]
  exact test_methods_of_no_test (by simp [hname])

/-- The first method of a test defines it. -/
theorem method (hopening : opening.name = "UnitTest") (hid : opening.required "id" = .ok id)
    (hname : tag.name = "TestMethod") (hnames : Names tag name)
    (h : LeadsTo none ⟨state.pending, (id, name) :: state.definitions, none⟩ tags final) :
    LeadsTo (some opening) state (tag :: tags) final := by
  obtain ⟨tests, definitions, still, hstill, hdefines, hfinal, htests⟩ := h
  refine ⟨(opening, tag) :: tests, (id, name) :: definitions, still, hstill,
    .cons ⟨hid, hnames⟩ hdefines, by simp [hfinal], fun more => ?_⟩
  have htags : definitionTags (tag :: tags) = tag :: definitionTags tags :=
    List.filter_cons_of_pos (by simp [hname])
  rw [htags]
  exact (test_methods_of_pair hopening hname).trans (congrArg _ (htests more))

end LeadsTo

/-- The tags of a run lead from its first state to its last, whichever test was open before. -/
theorem steps_define {state final : State} {tags : List Tag} {effects : List Effect}
    (h : rules.Steps state tags effects final) {opened : Option Tag}
    (hopened : Opened opened state.currentId) : LeadsTo opened state tags final := by
  induction h generalizing opened with
  | nil => exact .nil hopened
  | @ignore _ _ tag _ _ hhandler _ ih =>
      have hnames := Rules.handler_none hhandler
      have htest : tag.name ≠ "UnitTest" := hnames ("UnitTest", unitTest) (by simp [rules])
      have hmethod : tag.name ≠ "TestMethod" := hnames ("TestMethod", testMethod) (by simp [rules])
      exact .other htest hmethod rfl (ih hopened)
  | @handle state _ _ tag _ _ _ handler hhandler hstep _ ih =>
      have hmem := Rules.handler_mem hhandler
      simp only [rules, List.mem_cons, Prod.mk.injEq, List.not_mem_nil, or_false] at hmem
      rcases hmem with ⟨hname, rfl⟩ | ⟨hname, rfl⟩ | ⟨hname, rfl⟩
      · obtain ⟨kept, -, rfl, -⟩ := result_ok_iff.mp hstep
        exact .other (by simp [hname]) (by simp [hname]) rfl (ih hopened)
      · obtain ⟨id, hid, rfl, -⟩ := unit_test_ok_iff.mp hstep
        exact .test hname rfl (ih (.test hname hid))
      · generalize hcurrent : state.currentId = current at hopened
        cases hopened with
        | none =>
            simp only [testMethod, hcurrent] at hstep
            cases hstep
            exact .stray hname (ih (hcurrent ▸ .none))
        | @test opening id hopening hid =>
            obtain ⟨name, hnames, rfl⟩ := (test_method_ok_iff hcurrent).mp ⟨_, hstep⟩
            exact .method hopening hid hname hnames (ih .none)

/-- A run through a whole document has the document's definitions, the last one first. -/
theorem steps_definitions {final : State} {tags : List Tag} {effects : List Effect}
    (h : rules.Steps State.initial tags effects final) :
    ∃ definitions, List.Forall₂ Defines (testMethods (definitionTags tags)) definitions ∧
      final.definitions = definitions.reverse := by
  obtain ⟨tests, definitions, still, -, hdefines, hfinal, htests⟩ := steps_define h .none
  have hall := htests []
  have hnone : testMethods (still.toList ++ []) = [] := by cases still <;> rfl
  rw [hnone, List.append_nil, List.append_nil] at hall
  exact ⟨definitions, hall ▸ hdefines, by simpa [State.initial] using hfinal⟩

/-- Tags that can be handled one after the other are valid. -/
theorem valid_of_steps {final : State} {tags : List Tag} {effects : List Effect}
    (h : rules.Steps State.initial tags effects final) : Valid tags where
  results tag htag := by
    obtain ⟨htag, hname⟩ := List.mem_filter.mp htag
    rw [beq_iff_eq] at hname
    obtain ⟨state, ⟨after, effects⟩, hstep⟩ := h.accepted htag (hname ▸ handler_result)
    obtain ⟨kept, hkept, -⟩ := result_ok_iff.mp hstep
    exact ⟨kept, hkept⟩
  tests tag htag hname := by
    obtain ⟨state, ⟨after, effects⟩, hstep⟩ :=
      h.accepted (List.mem_filter.mp htag).1 (hname ▸ handler_unit_test)
    obtain ⟨id, hid, -⟩ := unit_test_ok_iff.mp hstep
    exact ⟨id, hid⟩
  methods test htest := by
    obtain ⟨definitions, hdefines, -⟩ := steps_definitions h
    obtain ⟨definition, -, hdefinition⟩ := forall₂_left hdefines test htest
    exact ⟨_, hdefinition.2⟩

/-- No handler refuses a tag of a valid document. -/
theorem accepted_of_valid {state : State} {done others : List Tag} {tag : Tag}
    {effects : List Effect} (hvalid : Valid (done ++ tag :: others))
    (h : rules.Steps State.initial done effects state) {handler : Handler State}
    (hhandler : rules.handler? tag.name = some handler) :
    ∃ after, handler tag state = .ok after := by
  have hmem := Rules.handler_mem hhandler
  simp only [rules, List.mem_cons, Prod.mk.injEq, List.not_mem_nil, or_false] at hmem
  rcases hmem with ⟨hname, rfl⟩ | ⟨hname, rfl⟩ | ⟨hname, rfl⟩
  · obtain ⟨kept, hkept⟩ := hvalid.results tag (List.mem_filter.mpr ⟨by simp, by simp [hname]⟩)
    exact ⟨_, result_ok_iff.mpr ⟨kept, hkept, rfl, rfl⟩⟩
  · obtain ⟨id, hid⟩ := hvalid.tests tag (mem_definition_tags (by simp) (.inl hname)) hname
    exact ⟨_, unit_test_ok_iff.mpr ⟨id, hid, rfl, rfl⟩⟩
  · obtain ⟨tests, definitions, still, hstill, -, -, htests⟩ := steps_define h .none
    generalize hcurrent : state.currentId = current at hstill
    cases hstill with
    | none => exact ⟨_, by simp only [testMethod, hcurrent]; rfl⟩
    | @test opening id hopening hid =>
        -- The tag is the method of the test that is open, so the document says what it is called.
        have hsplit : definitionTags (done ++ tag :: others) =
            definitionTags done ++ tag :: definitionTags others := by
          rw [definition_tags_append]
          exact congrArg _ (List.filter_cons_of_pos (by simp [hname]))
        have hall : testMethods (definitionTags (done ++ tag :: others)) =
            tests ++ (opening, tag) :: testMethods (definitionTags others) := by
          rw [hsplit, ← test_methods_of_pair hopening hname]
          exact htests _
        obtain ⟨name, hgives⟩ := hvalid.methods (opening, tag) (by simp [hall])
        obtain ⟨effects, hstep⟩ := (test_method_ok_iff hcurrent).mpr ⟨name, hgives, rfl⟩
        exact ⟨_, hstep⟩

/-- A document is read to its end exactly when all its tags are valid, and then it leads to a state
with its results and its definitions. -/
theorem apply_complete_iff {reading : Reading} (h : rules.Admits reading) :
    (rules.apply State.initial reading).fault = none ↔ Valid reading.tags := by
  rcases rules.apply_admitted h State.initial with ⟨hnone, hsteps⟩ |
    ⟨done, tag, others, effects, state, handler, refusal, htags, hsteps, hhandler, hrefused, htrace⟩
  · exact ⟨fun _ => valid_of_steps hsteps, fun _ => hnone⟩
  · refine ⟨fun hnone => ?_, fun hvalid => ?_⟩
    · rw [htrace] at hnone
      cases hnone
    · rw [htags] at hvalid
      obtain ⟨after, hstep⟩ := accepted_of_valid hvalid hsteps hhandler
      rw [hstep] at hrefused
      cases hrefused

/-- A result is kept in one way only. -/
theorem Keeps.unique {tag : Tag} {kept other : String × TestRecord} (h : Keeps tag kept)
    (h' : Keeps tag other) : kept = other := by
  obtain ⟨id, outcome, duration⟩ := kept
  obtain ⟨id', outcome', duration'⟩ := other
  obtain ⟨word, hid, hword, houtcome, hduration⟩ := h
  obtain ⟨word', hid', hword', houtcome', hduration'⟩ := h'
  simp only at hid houtcome hduration hid' houtcome' hduration'
  obtain rfl := Except.ok.inj (hid.symm.trans hid')
  obtain rfl := Except.ok.inj (hword.symm.trans hword')
  obtain rfl := Option.some.inj (houtcome.symm.trans houtcome')
  obtain rfl := Except.ok.inj (hduration.symm.trans hduration')
  rfl

section definitions

variable {tests : List (Tag × Tag)} {definitions : List (String × String)} {id name other : String}

/-- A method has one name only. -/
theorem Names.unique {method : Tag} (h : Names method name) (h' : Names method other) :
    name = other := by
  obtain ⟨className, methodName, codeBase, hclass, hname, hbase, rfl⟩ := h
  obtain ⟨className', methodName', codeBase', hclass', hname', hbase', rfl⟩ := h'
  obtain rfl := Except.ok.inj (hclass.symm.trans hclass')
  obtain rfl := Except.ok.inj (hname.symm.trans hname')
  obtain rfl := Except.ok.inj (hbase.symm.trans hbase')
  rfl

/-- The first of some definitions that has a test id. -/
theorem find_definition_iff (h : List.Forall₂ Defines tests definitions) :
    (definitions.find? fun entry => entry.1 == id).map Prod.snd = some name ↔
      FirstSuch (Defines · (id, name)) (fun earlier => earlier.1.required "id" ≠ .ok id) tests := by
  induction h with
  | nil => simp [FirstSuch.nil_iff]
  | @cons test definition tests definitions hdefines _ ih =>
      have hknown : test.1.required "id" = .ok definition.1 := hdefines.1
      rw [FirstSuch.cons_iff]
      by_cases hid : definition.1 = id
      · have hname : definition.2 = name ↔ Defines test (id, name) :=
          ⟨fun h => by simpa [← hid, ← h] using hdefines, fun h => hdefines.2.unique h.2⟩
        simp [hid, hknown, hname]
      · have hother : ¬ Defines test (id, name) :=
          fun h => hid (Except.ok.inj (hknown.symm.trans h.1))
        rw [List.find?_cons_of_neg (by simpa using hid), ih]
        simp [hknown, hid, hother]

/-- No definition has an id exactly when no test has it. -/
theorem find_definition_none_iff (h : List.Forall₂ Defines tests definitions) :
    (definitions.find? fun entry => entry.1 == id).map Prod.snd = none ↔
      ¬ ∃ test ∈ tests, test.1.required "id" = .ok id := by
  induction h with
  | nil => simp
  | @cons test definition tests definitions hdefines _ ih =>
      have hknown : test.1.required "id" = .ok definition.1 := hdefines.1
      by_cases hid : definition.1 = id
      · simp [hknown, hid]
      · rw [List.find?_cons_of_neg (by simpa using hid), ih]
        simp only [List.mem_cons, exists_eq_or_imp, hknown, Except.ok.injEq, hid, false_or]

/-- The last definition of an id gives one name only. -/
theorem LastDefinition.unique {tags : List Tag} (h : LastDefinition tags id name)
    (h' : LastDefinition tags id other) : name = other := by
  unfold LastDefinition at h h'
  generalize (testMethods (definitionTags tags)).reverse = tests at h h'
  induction tests with
  | nil => exact absurd h FirstSuch.nil_iff.mp
  | cons test tests ih =>
      rw [FirstSuch.cons_iff] at h h'
      rcases h with h | ⟨hnot, h⟩ <;> rcases h' with h' | ⟨hnot', h'⟩
      · exact h.2.unique h'.2
      · exact absurd h.1 hnot'
      · exact absurd h'.1 hnot
      · exact ih h h'

variable {final : State} {tags : List Tag} {effects : List Effect}

/-- A document that was followed to its end names a test id as its last definition does. -/
theorem definition_eq_some_iff (h : rules.Steps State.initial tags effects final) :
    final.definition? id = some name ↔ LastDefinition tags id name := by
  obtain ⟨definitions, hdefines, hfinal⟩ := steps_definitions h
  rw [State.definition?, hfinal, find_definition_iff (List.rel_reverse hdefines)]
  rfl

/-- A run ends without a definition of an id exactly when its tags do not define it. -/
theorem definition_eq_none_iff (h : rules.Steps State.initial tags effects final) :
    final.definition? id = none ↔ ¬ Defined tags id := by
  obtain ⟨definitions, hdefines, hfinal⟩ := steps_definitions h
  rw [State.definition?, hfinal, find_definition_none_iff (List.rel_reverse hdefines)]
  simp [Defined]

/-- Tags define an id exactly when the run over them ends with a definition of it. -/
theorem defined_iff (h : rules.Steps State.initial tags effects final) :
    Defined tags id ↔ ∃ name, final.definition? id = some name := by
  rw [← Option.isSome_iff_exists, Option.isSome_iff_ne_none, ne_eq, definition_eq_none_iff h,
    not_not]

end definitions

/-- Resolving fails at the first result whose test id has no definition. -/
theorem resolve_error_iff {state : State} {results : List (String × TestRecord)} {id : String} :
    resolve state results = .error id ↔
      FirstSuch (fun result => result.1 = id ∧ state.definition? id = none)
        (fun earlier => ∃ name, state.definition? earlier.1 = some name) results := by
  induction results with
  | nil => simp [resolve, FirstSuch.nil_iff]
  | cons result rest ih =>
      obtain ⟨known, record⟩ := result
      rw [FirstSuch.cons_iff, ← ih]
      cases hknown : state.definition? known with
      | none =>
          simp only [resolve, hknown, Except.error.injEq]
          constructor
          · rintro rfl
            exact .inl ⟨rfl, hknown⟩
          · rintro (⟨hid, -⟩ | ⟨⟨name, hname⟩, -⟩)
            · exact hid
            · cases hname
      | some name =>
          have hother : ¬ (known = id ∧ state.definition? id = none) := by
            rintro ⟨rfl, hnone⟩
            rw [hknown] at hnone
            cases hnone
          simp only [resolve, hknown, hother, false_or, Option.some.injEq, exists_eq', true_and]
          cases resolve state rest <;> simp [Except.map]

end VSTest

end TestMeasures
