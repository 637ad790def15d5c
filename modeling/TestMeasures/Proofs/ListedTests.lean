import TestMeasures.Proofs.ReaderRoundTrip
import TestMeasures.Proofs.ResultPlacement
import TestMeasures.Proofs.TextCuts

/-!
# Tests as reports list them

A `RunTest` is what every report format can tell of a test. `XUnit.Lists`, `NUnit.Lists` and
`VSTest.Lists` say which elements a report of each format has for the tests of a run; elements that
the format does not know may stand anywhere. Rules that record a test from its elements record all
tests of such a document in their order, and refuse it only for a time that cannot be read
(`Rules.Lists.apply`, with `XUnit.records` and `NUnit.records`). Results that are settled in the end
give the same records (`VSTest.settle_listed`).
-/

namespace TestMeasures

/-- The duration that an attribute of seconds gives by its value, if it has one. A value that is
refused gives nothing. -/
def secondsOf? : Option String → Option (Option Count)
  | none => some none
  | some text =>
    match Binary64.read (Tag.pointed (Text.trim text)) with
    | .error _ => none
    | .ok number =>
      if number.isFinite ∧ ¬ number.isNegative then some (some (millisOfSeconds number)) else none

/-- A test of a run: the path of its assembly, its class and method, its outcome, and the seconds
that it took as they are written. -/
structure RunTest where
  assembly : String
  className : String
  method : String
  outcome : Outcome
  time : Option String
deriving Repr, DecidableEq

namespace RunTest

/-- The name of a test behind that of its class. -/
def fullName (test : RunTest) : String :=
  test.className ++ "." ++ test.method

/-- The name that a test is looked up under. -/
def name (test : RunTest) : String :=
  qualifiedName (some (assemblyQualifier test.assembly)) test.fullName

/-- The record of a test and its key, unless its time cannot be read. -/
def entry? (map : MethodMap) (test : RunTest) : Option (ResultKey × TestRecord) :=
  (secondsOf? test.time).map fun duration =>
    ((attribution map test.name).1, ⟨test.outcome, duration⟩)

/-- The class has no comma and no blanks around it. -/
def PlainClass (test : RunTest) : Prop :=
  ',' ∉ test.className.toList ∧ Text.trim test.className = test.className

end RunTest

/-- The value of an attribute of an element. -/
def Element.attribute? (element : Element) (name : String) : Option String :=
  element.attributes.lookup name

section shows

variable {tag : Tag} {element : Element} {name value : String}

/-- A tag that shows an element has the optional attributes of the element. -/
theorem Tag.Shows.optional_eq (h : tag.Shows element) (name : String) :
    tag.optional name = .ok (element.attribute? name) := by
  unfold Element.attribute?
  cases hvalue : element.attributes.lookup name with
  | none =>
      refine h.absent name fun hmem => ?_
      obtain ⟨given, hgiven, rfl⟩ := List.mem_map.mp hmem
      exact absurd rfl (bne_iff_ne.mp (List.lookup_eq_none_iff.mp hvalue given hgiven))
  | some value =>
      obtain ⟨before, behind, hattributes, -⟩ := List.lookup_eq_some_iff.mp hvalue
      exact h.present (name, value) (by simp [hattributes])

/-- A tag that shows an element has a required attribute that the element has. -/
theorem Tag.Shows.required_eq (h : tag.Shows element)
    (hvalue : element.attribute? name = some value) : tag.required name = .ok value := by
  rw [Tag.required_ok_iff, h.optional_eq, hvalue]

/-- A tag that shows an element has no flag that the element does not have. -/
theorem Tag.Shows.flag_eq (h : tag.Shows element) (hvalue : element.attribute? name = none) :
    tag.flag name = .ok none := by
  unfold Tag.flag
  rw [h.optional_eq, hvalue]

/-- A number of seconds is read as its value says. -/
theorem Tag.seconds_ok_iff {duration : Option Count} {value : Option String}
    (h : tag.optional name = .ok value) :
    tag.seconds name = .ok duration ↔ secondsOf? value = some duration := by
  unfold Tag.seconds Tag.number
  rw [h]
  cases value with
  | none => simp [secondsOf?]
  | some text =>
      simp only [secondsOf?]
      cases Binary64.read (Tag.pointed (Text.trim text)) with
      | error fault => simp
      | ok number =>
          cases hfinite : number.isFinite <;> cases hnegative : number.isNegative <;>
            simp [hfinite, hnegative]

end shows

namespace Rules

variable {σ : Type} {rules : Rules σ} {state after : σ} {tags others : List Tag}
    {effects : List Effect}

/-- Whether rules have a handler for tags of a name. -/
def handles (rules : Rules σ) (name : String) : Bool :=
  (rules.handler? name).isSome

/-- Steps over tags and then over others are steps over both. -/
theorem Steps.append {middle : σ} {more : List Effect} (h : rules.Steps state tags effects middle)
    (hothers : rules.Steps middle others more after) :
    rules.Steps state (tags ++ others) (effects ++ more) after := by
  induction h with
  | nil => exact hothers
  | ignore hhandler _ ih => exact .ignore hhandler (ih hothers)
  | handle hhandler hstep _ ih =>
      rw [List.append_assoc]
      exact .handle hhandler hstep (ih hothers)

/-- A run through some tags and others goes through the first, and then through the others. -/
theorem Steps.of_append (h : rules.Steps state (tags ++ others) effects after) :
    ∃ middle first second, rules.Steps state tags first middle ∧
      rules.Steps middle others second after ∧ effects = first ++ second := by
  induction tags generalizing state effects with
  | nil => exact ⟨state, [], effects, .nil state, h, rfl⟩
  | cons tag tags ih =>
      cases h with
      | ignore hhandler hrest =>
          obtain ⟨middle, first, second, hfirst, hsecond, rfl⟩ := ih hrest
          exact ⟨middle, first, second, .ignore hhandler hfirst, hsecond, rfl⟩
      | handle hhandler hstep hrest =>
          obtain ⟨middle, first, second, hfirst, hsecond, rfl⟩ := ih hrest
          exact ⟨middle, _, second, .handle hhandler hstep hfirst, hsecond,
            (List.append_assoc ..).symm⟩

/-- Only the tags that rules handle make a run. -/
theorem steps_filter_iff :
    rules.Steps state (tags.filter fun tag => rules.handles tag.name) effects after ↔
      rules.Steps state tags effects after := by
  induction tags generalizing state effects with
  | nil => rfl
  | cons tag tags ih =>
      cases hhandler : rules.handler? tag.name with
      | none =>
          rw [List.filter_cons_of_neg (by simp [handles, hhandler]), ih]
          refine ⟨.ignore hhandler, fun h => ?_⟩
          cases h with
          | ignore _ hrest => exact hrest
          | handle hsome => simp [hhandler] at hsome
      | some handler =>
          rw [List.filter_cons_of_pos (by simp [handles, hhandler])]
          constructor
          · intro h
            cases h with
            | ignore hnone => simp [hhandler] at hnone
            | handle hsome hstep hrest => exact .handle hsome hstep (ih.mp hrest)
          · intro h
            cases h with
            | ignore hnone => simp [hhandler] at hnone
            | handle hsome hstep hrest => exact .handle hsome hstep (ih.mpr hrest)

/-- A run through two handled tags is a step for each. -/
theorem steps_pair_iff {tag other : Tag} {handler handler' : Handler σ}
    (h : rules.handler? tag.name = some handler)
    (h' : rules.handler? other.name = some handler') :
    rules.Steps state [tag, other] effects after ↔
      ∃ middle first second, handler tag state = .ok (middle, first) ∧
        handler' other middle = .ok (after, second) ∧ effects = first ++ second := by
  constructor
  · intro hsteps
    cases hsteps with
    | ignore hnone => simp [h] at hnone
    | handle hsome hstep hrest =>
        obtain rfl := Option.some.inj (h.symm.trans hsome)
        cases hrest with
        | ignore hnone => simp [h'] at hnone
        | handle hsome' hstep' hrest =>
            obtain rfl := Option.some.inj (h'.symm.trans hsome')
            cases hrest
            exact ⟨_, _, _, hstep, hstep', by rw [List.append_nil]⟩
  · rintro ⟨middle, first, second, hstep, hstep', rfl⟩
    have hsteps := Steps.handle h hstep (.handle h' hstep' (.nil after))
    rwa [List.append_nil] at hsteps

/-- Where tags lead rules, and with which effects, is determined. -/
theorem Steps.unique {after' : σ} {effects' : List Effect}
    (h : rules.Steps state tags effects after) (h' : rules.Steps state tags effects' after') :
    effects = effects' ∧ after = after' := by
  induction h generalizing effects' with
  | nil =>
      cases h'
      exact ⟨rfl, rfl⟩
  | ignore hnone _ ih =>
      cases h' with
      | ignore _ hrest => exact ih hrest
      | handle hsome => simp [hnone] at hsome
  | handle hsome hstep _ ih =>
      cases h' with
      | ignore hnone => simp [hsome] at hnone
      | handle hsome' hstep' hrest =>
          obtain rfl := Option.some.inj (hsome.symm.trans hsome')
          obtain ⟨rfl, rfl⟩ := Prod.mk.inj (Except.ok.inj (hstep.symm.trans hstep'))
          obtain ⟨rfl, rfl⟩ := ih hrest
          exact ⟨rfl, rfl⟩

/-- Rules that get through every tag of a document that they admit follow it to its end. -/
theorem apply_of_steps {reading : Reading} (h : rules.Admits reading)
    (hsteps : rules.Steps state reading.tags effects after) :
    (rules.apply state reading).fault = none := by
  rcases rules.apply_admitted h state with
    ⟨hnone, -⟩ | ⟨done, tag, others, _, _, handler, refusal, htags, hdone, hhandler, hrefused, -⟩
  · exact hnone
  · rw [htags] at hsteps
    obtain ⟨middle, first, second, hfirst, hsecond, -⟩ := hsteps.of_append
    obtain ⟨-, rfl⟩ := hfirst.unique hdone
    cases hsecond with
    | ignore hnone => simp [hhandler] at hnone
    | handle hsome hstep =>
        obtain rfl := Option.some.inj (hhandler.symm.trans hsome)
        rw [hrefused] at hstep
        cases hstep

/-- Tags record a test: rules get through them from any state when the time of the test can be read,
and whenever they do, the record of the test is all that is charged. -/
structure Records (rules : Rules σ) (map : MethodMap) (test : RunTest) (block : List Tag) :
    Prop where
  passes : ∀ state, (test.entry? map).isSome →
    ∃ effects after, rules.Steps state block effects after
  charges : ∀ {state effects after}, rules.Steps state block effects after →
    ∃ entry, test.entry? map = some entry ∧ effectEntries map effects = [entry]

variable {map : MethodMap} {tests : List RunTest} {blocks : List (List Tag)}

/-- Rules get through blocks of tags that record tests when every time can be read. -/
theorem pass_blocks (h : List.Forall₂ (rules.Records map) tests blocks)
    (htimes : ∀ test ∈ tests, (test.entry? map).isSome) (state : σ) :
    ∃ effects after, rules.Steps state blocks.flatten effects after := by
  induction h generalizing state with
  | nil => exact ⟨[], state, .nil state⟩
  | cons hblock _ ih =>
      obtain ⟨htime, htimes⟩ := List.forall_mem_cons.mp htimes
      obtain ⟨effects, middle, hsteps⟩ := hblock.passes state htime
      obtain ⟨more, after, hrest⟩ := ih htimes middle
      exact ⟨_, after, hsteps.append hrest⟩

/-- A run through blocks of tags that record tests charges their records in order. -/
theorem charge_blocks (h : List.Forall₂ (rules.Records map) tests blocks)
    (hsteps : rules.Steps state blocks.flatten effects after) :
    List.Forall₂ (fun test entry => test.entry? map = some entry) tests
      (effectEntries map effects) := by
  induction h generalizing state effects with
  | nil =>
      cases hsteps
      exact .nil
  | cons hblock _ ih =>
      obtain ⟨middle, first, second, hfirst, hsecond, rfl⟩ := hsteps.of_append
      obtain ⟨entry, hentry, hfirst⟩ := hblock.charges hfirst
      rw [effect_entries_append, hfirst]
      exact .cons hentry (ih hsecond)

/-- A document whose handled tags record tests, block by block, is followed to its end exactly when
every time can be read, and then the records of the tests are charged in order. -/
theorem apply_blocks {reading : Reading} (h : rules.Admits reading)
    (hblocks : List.Forall₂ (rules.Records map) tests blocks)
    (hhandled : (reading.tags.filter fun tag => rules.handles tag.name) = blocks.flatten)
    (state : σ) :
    let trace := rules.apply state reading
    (trace.fault = none ↔ ∀ test ∈ tests, (test.entry? map).isSome) ∧
      (trace.fault = none →
        List.Forall₂ (fun test entry => test.entry? map = some entry) tests
          (effectEntries map trace.effects)) := by
  intro trace
  have hcharged (hnone : trace.fault = none) :
      List.Forall₂ (fun test entry => test.entry? map = some entry) tests
        (effectEntries map trace.effects) :=
    charge_blocks hblocks (hhandled ▸ steps_filter_iff.mpr (h.steps_of_no_fault hnone))
  refine ⟨⟨fun hnone test htest => ?_, fun htimes => ?_⟩, hcharged⟩
  · obtain ⟨entry, -, hentry⟩ := forall₂_left (hcharged hnone) test htest
    exact hentry ▸ rfl
  · obtain ⟨effects, after, hsteps⟩ := pass_blocks hblocks htimes state
    exact apply_of_steps h (steps_filter_iff.mp (hhandled ▸ hsteps))

/-- The elements that rules handle tell tests, one after the other, and the outermost elements of
the document are root elements. -/
structure Lists (rules : Rules σ) (tells : RunTest → List Element → Prop) (elements : List Element)
    (tests : List RunTest) : Prop where
  rooted : ∃ element ∈ elements, element.depth = 0
  roots : ∀ element ∈ elements, element.depth = 0 → element.name ∈ rules.roots
  blocks : ∃ blocks, List.Forall₂ tells tests blocks ∧
    (elements.filter fun element => rules.handles element.name) = blocks.flatten

end Rules

section relations

variable {α β γ : Type} {relates : α → γ → Prop} {relates' : β → γ → Prop}
    {items : List α} {others : List β}

/-- Items that are related to the same items are related to each other. -/
theorem forall₂_join {joins : α → β → Prop} {middle : List γ}
    (h : List.Forall₂ relates items middle) (h' : List.Forall₂ relates' others middle)
    (hjoins : ∀ a b c, relates a c → relates' b c → joins a b) :
    List.Forall₂ joins items others := by
  induction h generalizing others with
  | nil =>
      cases h'
      exact .nil
  | cons hhead _ ih =>
      cases h' with
      | cons hhead' htail' => exact .cons (hjoins _ _ _ hhead hhead') (ih htail')

/-- Items that are related to those of blocks fall into blocks themselves. -/
theorem forall₂_flatten {blocks : List (List γ)} (h : List.Forall₂ relates items blocks.flatten) :
    ∃ pieces, items = pieces.flatten ∧ List.Forall₂ (List.Forall₂ relates) pieces blocks := by
  induction blocks generalizing items with
  | nil =>
      cases h
      exact ⟨[], rfl, .nil⟩
  | cons block blocks ih =>
      rw [List.flatten_cons] at h
      obtain ⟨pieces, hpieces, hrest⟩ := ih (List.forall₂_drop_append _ _ _ h)
      refine ⟨items.take block.length :: pieces, ?_, .cons (List.forall₂_take_append _ _ _ h) hrest⟩
      rw [List.flatten_cons, ← hpieces, List.take_append_drop]

end relations

section reading

variable {reading : Reading} {elements : List Element}

/-- Tags of some names show the elements of these names. -/
theorem shows_filter (hshows : List.Forall₂ Tag.Shows reading.tags elements)
    (wanted : String → Bool) :
    List.Forall₂ Tag.Shows (reading.tags.filter fun tag => wanted tag.name)
      (elements.filter fun element => wanted element.name) :=
  List.rel_filter (fun _ _ h => iff_of_eq (congrArg (wanted · = true) h.name)) hshows

/-- Rules admit a document whose outermost elements are root elements. -/
theorem admits_of_shows {σ : Type} {rules : Rules σ} (hending : reading.ending = .ok ())
    (hshows : List.Forall₂ Tag.Shows reading.tags elements)
    (hrooted : ∃ element ∈ elements, element.depth = 0)
    (hroots : ∀ element ∈ elements, element.depth = 0 → element.name ∈ rules.roots) :
    rules.Admits reading where
  complete := hending
  rooted := by
    have hnone : (∀ tag ∈ reading.tags, tag.depth ≠ 0) ↔ ∀ element ∈ elements, element.depth ≠ 0 :=
      forall₂_forall_iff hshows fun _ _ h => by rw [h.depth]
    by_contra hno
    obtain ⟨element, helement, hdepth⟩ := hrooted
    exact hnone.mp (fun tag htag htop => hno ⟨tag, htag, htop⟩) element helement hdepth
  roots := (forall₂_forall_iff hshows fun _ _ h => by rw [h.depth, h.name]).mpr hroots

/-- Rules that record a test from the tags that show its elements record the tests of a whole
document. -/
theorem Rules.Lists.apply {σ : Type} {rules : Rules σ} {tells : RunTest → List Element → Prop}
    {tests : List RunTest} (h : rules.Lists tells elements tests) {map : MethodMap}
    (hrecords : ∀ test tags elements, tells test elements → List.Forall₂ Tag.Shows tags elements →
      rules.Records map test tags)
    (hending : reading.ending = .ok ()) (hshows : List.Forall₂ Tag.Shows reading.tags elements)
    (state : σ) :
    let trace := rules.apply state reading
    (trace.fault = none ↔ ∀ test ∈ tests, (test.entry? map).isSome) ∧
      (trace.fault = none →
        List.Forall₂ (fun test entry => test.entry? map = some entry) tests
          (effectEntries map trace.effects)) := by
  obtain ⟨blocks, htells, hblocks⟩ := h.blocks
  have hhandled := shows_filter hshows rules.handles
  rw [hblocks] at hhandled
  obtain ⟨pieces, hpieces, hpiecesShow⟩ := forall₂_flatten hhandled
  have hpiecesRecord : List.Forall₂ (rules.Records map) tests pieces :=
    forall₂_join htells hpiecesShow fun test tags block => hrecords test tags block
  exact rules.apply_blocks (admits_of_shows hending hshows h.rooted h.roots) hpiecesRecord hpieces
    state

end reading

/-- A tag that opens the assembly of a test and one that charges the test record it. -/
theorem records_of_pair {rules : Rules (Option String)} {map : MethodMap} {test : RunTest}
    {opener case : Tag} (opens charges : Handler (Option String))
    (hopener : rules.handler? opener.name = some opens)
    (hcase : rules.handler? case.name = some charges)
    (hopens : ∀ state, ∃ scope message,
      opens opener state = .ok (some (assemblyQualifier test.assembly), [.note scope message]))
    (hcharges : ∀ state after effects, charges case state = .ok (after, effects) ↔
      ∃ duration, secondsOf? test.time = some duration ∧ after = state ∧
        effects = [.charge (qualifiedName state test.fullName) ⟨test.outcome, duration⟩]) :
    rules.Records map test [opener, case] where
  passes state htime := by
    obtain ⟨scope, message, hopen⟩ := hopens state
    obtain ⟨duration, hduration⟩ : ∃ duration, secondsOf? test.time = some duration := by
      rwa [RunTest.entry?, Option.isSome_map, Option.isSome_iff_exists] at htime
    exact ⟨_, _, (Rules.steps_pair_iff hopener hcase).mpr
      ⟨_, _, _, hopen, (hcharges _ _ _).mpr ⟨duration, hduration, rfl, rfl⟩, rfl⟩⟩
  charges {state effects after} hsteps := by
    obtain ⟨middle, first, second, hfirst, hsecond, rfl⟩ :=
      (Rules.steps_pair_iff hopener hcase).mp hsteps
    obtain ⟨scope, message, hopen⟩ := hopens state
    obtain ⟨rfl, rfl⟩ := Prod.mk.inj (Except.ok.inj (hopen.symm.trans hfirst))
    obtain ⟨duration, hduration, -, rfl⟩ := (hcharges _ _ _).mp hsecond
    refine ⟨_, ?_, rfl⟩
    rw [RunTest.entry?, hduration]
    rfl

namespace XUnit

/-- The elements of a test: its assembly, and the test itself. -/
inductive Tells (test : RunTest) : List Element → Prop where
  | mk {opener case : Element} {word : String} (hassembly : opener.name = "assembly")
      (hpath : opener.attribute? "name" = some test.assembly) (hcase : case.name = "test")
      (hname : case.attribute? "name" = some test.fullName)
      (hresult : case.attribute? "result" = some word)
      (hword : outcome? word = some test.outcome) (htime : case.attribute? "time" = test.time) :
      Tells test [opener, case]

/-- A document lists the tests of a run, each behind its assembly. -/
def Lists : List Element → List RunTest → Prop :=
  rules.Lists Tells

/-- The elements that tell a test make one record of it. -/
theorem records (map : MethodMap) {test : RunTest} {elements : List Element} {tags : List Tag}
    (h : Tells test elements) (hshows : List.Forall₂ Tag.Shows tags elements) :
    rules.Records map test tags := by
  obtain ⟨hassembly, hpath, hcase, hname, hresult, hword, htime⟩ := h
  obtain _ | ⟨hopener, _ | ⟨hshown, _ | _⟩⟩ := hshows
  refine records_of_pair assembly XUnit.test ?_ ?_ (fun state => ?_) fun state after effects => ?_
  · rw [hopener.name, hassembly]
    rfl
  · rw [hshown.name, hcase]
    rfl
  · unfold assembly
    simp only [Handler.reading_ok_iff]
    rw [hopener.required_eq hpath]
    exact ⟨_, _, rfl⟩
  · unfold XUnit.test
    rw [Handler.reading_ok_iff, hshown.required_eq hresult, hshown.required_eq hname]
    simp only [except_bind_ok, Except.ok.injEq, exists_eq_left',
      Tag.seconds_ok_iff (hshown.optional_eq "time"), htime, hword, pure, Except.pure,
      Prod.mk.injEq]
    simp only [eq_comm]

end XUnit

namespace NUnit

/-- The elements of a test: a suite that stands for its assembly, and the test case, without label
or word on its execution. -/
inductive Tells (test : RunTest) : List Element → Prop where
  | mk {opener case : Element} {word : String} (hsuite : opener.name = "test-suite")
      (htype : opener.attribute? "type" = some "Assembly")
      (hpath : opener.attribute? "name" = some test.assembly)
      (hcase : case.name = "test-case") (hname : case.attribute? "fullname" = some test.fullName)
      (hresult : case.attribute? "result" = some word)
      (hword : outcome? word none = some test.outcome)
      (hlabel : case.attribute? "label" = none) (hexecuted : case.attribute? "executed" = none)
      (hduration : case.attribute? "duration" = none) (htime : case.attribute? "time" = test.time) :
      Tells test [opener, case]

/-- A document lists the tests of a run, each behind its assembly. -/
def Lists : List Element → List RunTest → Prop :=
  rules.Lists Tells

section case

variable {tag : Tag} {element : Element}

/-- A test case with a full name goes by it. -/
theorem case_name_eq (h : tag.Shows element) {name : String}
    (hname : element.attribute? "fullname" = some name) : caseName tag = .ok name := by
  unfold caseName
  rw [h.optional_eq, hname]
  rfl

/-- Without a duration, the time of a test case counts. -/
theorem case_duration_ok_iff (h : tag.Shows element)
    (hduration : element.attribute? "duration" = none) {duration : Option Count} :
    caseDuration tag = .ok duration ↔ secondsOf? (element.attribute? "time") = some duration := by
  have hnone : tag.seconds "duration" = .ok none := by
    rw [Tag.seconds_ok_iff (h.optional_eq "duration"), hduration]
    rfl
  unfold caseDuration
  rw [hnone, ← Tag.seconds_ok_iff (h.optional_eq "time")]
  rfl

end case

/-- The elements that tell a test make one record of it. -/
theorem records (map : MethodMap) {test : RunTest} {elements : List Element} {tags : List Tag}
    (h : Tells test elements) (hshows : List.Forall₂ Tag.Shows tags elements) :
    rules.Records map test tags := by
  obtain ⟨hsuite, htype, hpath, hcase, hname, hresult, hword, hlabel, hexecuted, hduration,
    htime⟩ := h
  obtain _ | ⟨hopener, _ | ⟨hshown, _ | _⟩⟩ := hshows
  refine records_of_pair suite NUnit.case ?_ ?_ (fun state => ?_) fun state after effects => ?_
  · rw [hopener.name, hsuite]
    rfl
  · rw [hshown.name, hcase]
    rfl
  · unfold suite
    simp only [Handler.reading_ok_iff]
    rw [hopener.optional_eq, htype, hopener.required_eq hpath]
    exact ⟨_, _, rfl⟩
  · have hcaseName := case_name_eq hshown hname
    unfold NUnit.case
    rw [Handler.reading_ok_iff, hcaseName, hshown.required_eq hresult, hshown.optional_eq, hlabel,
      hshown.flag_eq hexecuted]
    simp only [except_bind_ok, Except.ok.injEq, exists_eq_left',
      case_duration_ok_iff hshown hduration, htime, hword, pure, Except.pure, Prod.mk.injEq,
      reduceCtorEq, if_false]
    simp only [eq_comm]

end NUnit

section className

/-- A class without a comma and blanks around it names no assembly. -/
theorem RunTest.PlainClass.parts {test : RunTest} (h : test.PlainClass) :
    VSTest.classParts test.className = (test.className, none) := by
  unfold VSTest.classParts Text.split
  rw [split_chars_of_not_mem h.1]
  simp [h.2]

end className

namespace VSTest

/-- The result of a test of an id, without a duration. -/
inductive TellsResult (known : String × RunTest) (element : Element) : Prop where
  | mk {word : String} (hid : element.attribute? "testId" = some known.1)
      (houtcome : element.attribute? "outcome" = some word)
      (hword : outcome? word = some known.2.outcome)
      (hduration : element.attribute? "duration" = none)

/-- The definition of a test of an id. -/
inductive TellsDefinition (known : String × RunTest) : List Element → Prop where
  | mk {test method : Element} (htest : test.name = "UnitTest")
      (hid : test.attribute? "id" = some known.1)
      (hmethod : method.name = "TestMethod")
      (hbase : method.attribute? "codeBase" = some known.2.assembly)
      (hclass : method.attribute? "className" = some known.2.className)
      (hname : method.attribute? "name" = some known.2.method) :
      TellsDefinition known [test, method]

/-- A document lists the tests of a run: every test has an id of its own, the results stand in the
order of the tests, and each test is defined once, in any order. -/
structure Lists (elements : List Element) (tests : List RunTest) : Prop where
  rooted : ∃ element ∈ elements, element.depth = 0
  roots : ∀ element ∈ elements, element.depth = 0 → element.name ∈ rules.roots
  identified : ∃ (known defined : List (String × RunTest)) (blocks : List (List Element)),
    known.map Prod.snd = tests ∧ (known.map Prod.fst).Nodup ∧ defined.Perm known ∧
      List.Forall₂ TellsResult known
        (elements.filter fun element => element.name == "UnitTestResult") ∧
      List.Forall₂ TellsDefinition defined blocks ∧
      (elements.filter fun element => element.name == "UnitTest" || element.name == "TestMethod") =
        blocks.flatten

section listed

variable {reading : Reading} {elements : List Element} {known : String × RunTest}

/-- The element that tells a result is kept with its id and outcome. -/
theorem keeps_of_tells {tag : Tag} {element : Element} (h : TellsResult known element)
    (hshows : tag.Shows element) : Keeps tag (known.1, ⟨known.2.outcome, none⟩) := by
  obtain ⟨hid, houtcome, hword, hduration⟩ := h
  refine ⟨_, hshows.required_eq hid, hshows.required_eq houtcome, hword, ?_⟩
  rw [result_duration_ok_iff, hshows.optional_eq, hduration]
  exact .inl ⟨rfl, rfl⟩

/-- Tags that define the test of an id, and nothing else. -/
inductive DefinedBy (known : String × RunTest) : List Tag → Prop where
  | mk {test method : Tag} (htest : test.name = "UnitTest") (hmethod : method.name = "TestMethod")
      (hid : test.required "id" = .ok known.1) (hnames : Names method known.2.name) :
      DefinedBy known [test, method]

/-- The elements that tell a definition define the test under its id. -/
theorem defined_by_of_tells {tags : List Tag} {elements : List Element}
    (h : TellsDefinition known elements) (hshows : List.Forall₂ Tag.Shows tags elements)
    (hplain : known.2.PlainClass) : DefinedBy known tags := by
  obtain ⟨htest, hid, hmethod, hbase, hclass, hname⟩ := h
  obtain _ | ⟨hshown, _ | ⟨hshown', _ | _⟩⟩ := hshows
  refine .mk (hshown.name.trans htest) (hshown'.name.trans hmethod) (hshown.required_eq hid) ?_
  refine ⟨_, _, _, hshown'.required_eq hclass, hshown'.required_eq hname,
    hshown'.optional_eq "codeBase", ?_⟩
  rw [hbase, hplain.parts, RunTest.name, RunTest.fullName]

/-- The tests that blocks of definitions define. -/
theorem test_methods_defined {defined : List (String × RunTest)} {pieces : List (List Tag)}
    (h : List.Forall₂ DefinedBy defined pieces) :
    List.Forall₂
        (fun known test => test.1.required "id" = .ok known.1 ∧ Names test.2 known.2.name)
        defined (testMethods pieces.flatten) ∧
      ∀ tag ∈ pieces.flatten, tag.name = "UnitTest" → ∃ id, tag.required "id" = .ok id := by
  induction h with
  | nil => exact ⟨.nil, by simp⟩
  | @cons known piece defined pieces hpiece _ ih =>
      obtain ⟨htest, hmethod, hid, hnames⟩ := hpiece
      rw [List.flatten_cons, List.cons_append, List.cons_append, List.nil_append,
        test_methods_of_pair htest hmethod]
      refine ⟨.cons ⟨hid, hnames⟩ ih.1, List.forall_mem_cons.mpr ⟨fun _ => ⟨_, hid⟩,
        List.forall_mem_cons.mpr ⟨fun hname => ?_, ih.2⟩⟩⟩
      rw [hmethod] at hname
      exact absurd hname (by decide)

/-- Tags have one result for each test of a run and one definition of it, under an id of its own. -/
structure Identify (tags : List Tag) (known defined : List (String × RunTest)) : Prop where
  distinct : (known.map Prod.fst).Nodup
  perm : defined.Perm known
  results : List.Forall₂ (fun known tag => Keeps tag (known.1, ⟨known.2.outcome, none⟩)) known
    (resultTags tags)
  definitions : List.Forall₂
    (fun known test => test.1.required "id" = .ok known.1 ∧ Names test.2 known.2.name)
    defined (testMethods (definitionTags tags))
  tests : ∀ tag ∈ definitionTags tags, tag.name = "UnitTest" → ∃ id, tag.required "id" = .ok id

/-- A document that lists tests identifies each of them by results and definitions. -/
theorem Lists.identify {tests : List RunTest} (h : Lists elements tests)
    (hplain : ∀ test ∈ tests, test.PlainClass)
    (hshows : List.Forall₂ Tag.Shows reading.tags elements) :
    ∃ known defined, known.map Prod.snd = tests ∧ Identify reading.tags known defined := by
  obtain ⟨known, defined, blocks, rfl, hdistinct, hperm, hresults, hdefinitions, hblocks⟩ :=
    h.identified
  have hhandled := shows_filter hshows fun name => name == "UnitTest" || name == "TestMethod"
  rw [hblocks] at hhandled
  obtain ⟨pieces, hpieces, hpiecesShow⟩ := forall₂_flatten hhandled
  have hplainDefined : ∀ known ∈ defined, known.2.PlainClass := fun known hknown =>
    hplain _ (List.mem_map_of_mem (hperm.mem_iff.mp hknown))
  have hpiecesDefine : List.Forall₂ DefinedBy defined pieces :=
    forall₂_join ((List.forall₂_and_left _ _).mpr ⟨hplainDefined, hdefinitions⟩) hpiecesShow
      fun _ _ _ htells hpiece => defined_by_of_tells htells.2 hpiece htells.1
  obtain ⟨hdefined, htests⟩ := test_methods_defined hpiecesDefine
  rw [← hpieces] at hdefined htests
  exact ⟨known, defined, rfl, hdistinct, hperm,
    forall₂_join hresults (shows_filter hshows (· == "UnitTestResult")) fun _ _ _ => keeps_of_tells,
    hdefined, htests⟩

namespace Identify

variable {tags : List Tag} {defined : List (String × RunTest)} {known : List (String × RunTest)}

/-- Tags that identify tests are valid. -/
theorem valid (h : Identify tags known defined) : Valid tags where
  results tag htag := by
    obtain ⟨_, -, hkeeps⟩ := forall₂_left h.results.flip tag htag
    exact ⟨_, hkeeps⟩
  tests := h.tests
  methods test htest := by
    obtain ⟨_, -, -, hnames⟩ := forall₂_left h.definitions.flip test htest
    exact ⟨_, hnames⟩

/-- Every result has the id of a defined test. -/
theorem result_defined (h : Identify tags known defined) {result : Tag}
    (hresult : result ∈ resultTags tags) {id : String}
    (hid : result.required "testId" = .ok id) : Defined tags id := by
  obtain ⟨test, htest, word, hknown, -⟩ := forall₂_left h.results.flip result hresult
  obtain ⟨pair, hpair, hdefined, -⟩ := forall₂_left h.definitions test (h.perm.mem_iff.mpr htest)
  obtain rfl := Except.ok.inj (hknown.symm.trans hid)
  exact ⟨pair, hpair, hdefined⟩

/-- The definition of the id of a test gives its name, as no other test has this id. -/
theorem name_eq (h : Identify tags known defined) {test : String × RunTest} (htest : test ∈ known)
    {name : String} (hlast : LastDefinition tags test.1 name) : name = test.2.name := by
  obtain ⟨before, pair, after, hpairs, hdefines, -⟩ := hlast
  have hpair : pair ∈ testMethods (definitionTags tags) :=
    List.mem_reverse.mp (hpairs ▸ List.mem_append_right _ List.mem_cons_self)
  obtain ⟨other, hother, hid, hnames⟩ := forall₂_left h.definitions.flip pair hpair
  obtain rfl : other = test := List.inj_on_of_nodup_map h.distinct (h.perm.mem_iff.mp hother) htest
    (Except.ok.inj (hid.symm.trans hdefines.1))
  exact hdefines.2.unique hnames

end Identify

/-- A document that lists tests without times is settled, and charges their records in order. -/
theorem settle_listed {tests : List RunTest} (h : Lists elements tests)
    (hplain : ∀ test ∈ tests, test.PlainClass) (htimes : ∀ test ∈ tests, test.time = none)
    (hending : reading.ending = .ok ()) (hshows : List.Forall₂ Tag.Shows reading.tags elements)
    (map : MethodMap) :
    let settled := settle (rules.apply State.initial reading)
    settled.fault = none ∧
      List.Forall₂ (fun test entry => test.entry? map = some entry) tests
        (effectEntries map settled.effects) := by
  intro settled
  obtain ⟨known, defined, rfl, hidentify⟩ := h.identify hplain hshows
  have hadmits : rules.Admits reading := admits_of_shows hending hshows h.rooted h.roots
  have hnone : settled.fault = none := (settle_complete_iff hadmits).mpr
    ⟨hidentify.valid, fun _ hresult _ => hidentify.result_defined hresult⟩
  refine ⟨hnone, ?_⟩
  rw [List.forall₂_map_left_iff]
  refine forall₂_join ((List.forall₂_and_left _ _).mpr ⟨fun _ h => h, hidentify.results⟩)
    (settle_charged hadmits map hnone).flip fun test entry tag hkept hcharged => ?_
  obtain ⟨htest, hkeeps⟩ := hkept
  obtain ⟨id, name, hkeeps', hlast, hkey⟩ := hcharged
  obtain ⟨rfl, hrecord⟩ := Prod.mk.inj (hkeeps.unique hkeeps')
  rw [hidentify.name_eq htest hlast] at hkey
  rw [RunTest.entry?, htimes test.2 (List.mem_map_of_mem htest), secondsOf?, Option.map_some,
    hrecord, ← hkey]

end listed

end VSTest

end TestMeasures
