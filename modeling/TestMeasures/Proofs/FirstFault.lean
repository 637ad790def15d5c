import TestMeasures.Proofs.DocumentFront
import TestMeasures.Proofs.TestAccounts

/-!
# The first tag that is refused

Rules stop at the first tag of a document that they refuse: those before it decide the state, and no later
one is handled. `refused_tag_decides` says that nothing behind such a tag matters, be it well-formed
or not: every document with the same front ends with the same fault and leaves the same results.
-/

namespace TestMeasures

/-- A fault that is found at a tag. -/
def ReportFault.AtTag : ReportFault → Prop
  | .tag _ _ => True
  | .unexpectedRoot _ _ => True
  | _ => False

/-- A document does not end with a fault at a tag. -/
theorem Reading.ending_not_at_tag {bytes : List UInt8} {fault : ReportFault}
    (h : (ofBytes bytes).ending = .error fault) : ¬ fault.AtTag := by
  obtain ⟨events, final, hreads, hlast⟩ := Xml.Parser.reads_to_last (Xml.Parser.ofBytes bytes)
  rw [of_bytes_eq hreads hlast] at h
  unfold Xml.Markup.Event.ending at h
  split at h
  · cases h
    exact id
  · split at h <;> cases h
    exact id

namespace Rules

variable {σ : Type} {rules : Rules σ} {initial state after : σ} {done others : List Tag} {tag : Tag}
  {fault : ReportFault} {effects : List Effect} {reading : Reading}

/-- What rules leave of a tag that they refuse in a state: it is an outermost one that they do not expect, or its
handler refuses it. -/
inductive Refusal (rules : Rules σ) (state : σ) (tag : Tag) : Trace σ → Prop where
  | unexpected (hdepth : tag.depth = 0) (hname : tag.name ∉ rules.roots) :
      Refusal rules state tag ⟨state, [], some (.unexpectedRoot tag.name rules.roots)⟩
  | handler {handler : Handler σ} {refusal : TagRefusal σ} (hroot : tag.depth = 0 → tag.name ∈ rules.roots)
      (hhandler : rules.handler? tag.name = some handler) (hrefusal : handler tag state = .error refusal) :
      Refusal rules state tag (refusal.trace tag state)

/-- Rules refuse a tag of a document: they have handled those before it and expect their outermost ones, and
end with what they leave of this one. -/
structure Refuses (rules : Rules σ) (initial : σ) (reading : Reading) (done : List Tag) (tag : Tag)
    (fault : ReportFault) : Prop where
  here : ∃ others, reading.tags = done ++ tag :: others
  expected : ∀ earlier ∈ done, earlier.depth = 0 → earlier.name ∈ rules.roots
  refusal : ∃ effects state left, rules.Steps initial done effects state ∧ rules.Refusal state tag left ∧
    rules.apply initial reading = left.behind effects
  fault : (rules.apply initial reading).fault = some fault

/-- Rules that handle some tags and refuse the next one end there, whatever stands behind it. -/
theorem follow_refused {left : Trace σ} (hsteps : rules.Steps state done effects after)
    (hexpected : ∀ earlier ∈ done, earlier.depth = 0 → earlier.name ∈ rules.roots)
    (hrefusal : rules.Refusal after tag left) (ending : Except ReportFault Unit) (sawRoot : Bool)
    (others : List Tag) :
    rules.follow ending sawRoot state (done ++ tag :: others) = left.behind effects := by
  induction hsteps generalizing sawRoot with
  | nil state =>
      cases hrefusal with
      | unexpected hdepth hname =>
          rw [List.nil_append, follow, if_pos ⟨hdepth, hname⟩]
          rfl
      | handler hroot hhandler hrefusal =>
          rw [List.nil_append, follow, if_neg fun h => h.2 (hroot h.1)]
          simp only [hhandler, hrefusal]
          rfl
  | ignore hhandler _ ih =>
      obtain ⟨hfirst, hrest⟩ := List.forall_mem_cons.mp hexpected
      rw [List.cons_append, follow, if_neg fun h => h.2 (hfirst h.1)]
      simp only [hhandler, ih hrest hrefusal]
  | handle hhandler hstep _ ih =>
      obtain ⟨hfirst, hrest⟩ := List.forall_mem_cons.mp hexpected
      rw [List.cons_append, follow, if_neg fun h => h.2 (hfirst h.1)]
      simp only [hhandler, hstep, ih hrest hrefusal, Trace.behind_behind]

/-- A fault at a tag is one that rules refuse. -/
theorem refuses_of_fault {bytes : List UInt8}
    (h : (rules.apply initial (Reading.ofBytes bytes)).fault = some fault) (hfault : fault.AtTag) :
    ∃ done tag, rules.Refuses initial (Reading.ofBytes bytes) done tag fault := by
  obtain ⟨done, rest, effects, state, left, htags, hsteps, hexpected, hstops, hfollow⟩ :=
    rules.follow_run (Reading.ofBytes bytes).ending false initial (Reading.ofBytes bytes).tags
  have happly : rules.apply initial (Reading.ofBytes bytes) = left.behind effects := hfollow
  have hleft : left.fault = some fault := by rw [← h, happly, Trace.behind]
  cases hstops with
  | complete => cases hleft
  | noRoot =>
      cases hleft
      cases hfault
  | broken found hending =>
      obtain rfl : found = fault := Option.some.inj hleft
      exact absurd hfault (Reading.ending_not_at_tag hending)
  | unexpected tag others hdepth hname =>
      exact ⟨done, tag, ⟨others, htags⟩, hexpected, ⟨effects, state, _, hsteps, .unexpected hdepth hname, happly⟩, h⟩
  | refused tag others handler refusal hhandler hrefusal =>
      have hroot : tag.depth = 0 → tag.name ∈ rules.roots := by
        intro hdepth
        by_contra hname
        -- An outermost tag that is not expected is refused before its handler sees it.
        have hends := follow_refused hsteps hexpected (.unexpected hdepth hname)
          (Reading.ofBytes bytes).ending false others
        rw [← htags, hfollow] at hends
        cases congrArg Trace.fault hends
      exact ⟨done, tag, ⟨others, htags⟩, hexpected,
        ⟨effects, state, _, hsteps, .handler hroot hhandler hrefusal, happly⟩, h⟩

/-- A document with the same tags up to one that is refused ends with that one, too. -/
theorem Refuses.same {other : Reading} (h : rules.Refuses initial reading done tag fault)
    (hother : ∃ others, other.tags = done ++ tag :: others) :
    rules.apply initial other = rules.apply initial reading ∧
      rules.Refuses initial other done tag fault := by
  obtain ⟨others, htags⟩ := hother
  obtain ⟨effects, state, left, hsteps, hrefusal, happly⟩ := h.refusal
  have happly' : rules.apply initial other = left.behind effects := by
    unfold apply
    rw [htags, follow_refused hsteps h.expected hrefusal]
  have hsame := happly'.trans happly.symm
  exact ⟨hsame, ⟨others, htags⟩, h.expected, ⟨effects, state, left, hsteps, hrefusal, happly'⟩, hsame ▸ h.fault⟩

/-- The fault of a tag that its handler refuses is told with the place of the tag. -/
theorem Refuses.handler {position : Nat} {fault : TagFault}
    (h : rules.Refuses initial reading done tag (.tag position fault)) :
    tag.position = position ∧ ∃ effects state handler refusal, rules.Steps initial done effects state ∧
      rules.handler? tag.name = some handler ∧ handler tag state = .error refusal ∧ refusal.fault = fault := by
  obtain ⟨effects, state, left, hsteps, hrefusal, happly⟩ := h.refusal
  have hfault := h.fault
  rw [happly] at hfault
  cases hrefusal with
  | unexpected => cases hfault
  | handler hroot hhandler hrefusal =>
      cases hfault
      exact ⟨rfl, effects, state, _, _, hsteps, hhandler, hrefusal, rfl⟩

/-- Nothing behind a front in which the first refused tag is closed makes a difference. -/
theorem front_decides {front behind : List UInt8}
    (h : (rules.apply initial (Reading.ofBytes (front ++ behind))).fault = some fault)
    (hfault : fault.AtTag) :
    ∃ done tag, rules.Refuses initial (Reading.ofBytes (front ++ behind)) done tag fault ∧
      (tag.ClosesIn front → ∀ behind',
        rules.Refuses initial (Reading.ofBytes (front ++ behind')) done tag fault ∧
          rules.apply initial (Reading.ofBytes (front ++ behind')) =
            rules.apply initial (Reading.ofBytes (front ++ behind))) := by
  obtain ⟨done, tag, hrefuses⟩ := refuses_of_fault h hfault
  refine ⟨done, tag, hrefuses, fun hcloses behind' => ?_⟩
  obtain ⟨others, htags⟩ := hrefuses.here
  obtain ⟨hsame, hother⟩ := hrefuses.same (Reading.tags_of_front htags hcloses behind')
  exact ⟨hother, hsame⟩

end Rules

namespace Dialect

/-- The rules of a dialect refuse a tag of a document. -/
def Refuses (dialect : Dialect) (reading : Reading) (done : List Tag) (tag : Tag) (fault : ReportFault) :
    Prop :=
  match dialect with
  | .xunit => XUnit.rules.Refuses none reading done tag fault
  | .nunit => NUnit.rules.Refuses none reading done tag fault
  | .vstest => VSTest.rules.Refuses VSTest.State.initial reading done tag fault

/-- Results are settled only when no tag was refused. -/
theorem trace_fault_of_settle {trace : Trace VSTest.State} {fault : ReportFault}
    (h : (VSTest.settle trace).fault = some fault) (hfault : fault.AtTag) : trace.fault = some fault := by
  unfold VSTest.settle at h
  cases htrace : trace.fault with
  | some found =>
      rw [htrace] at h
      exact htrace.symm.trans h
  | none =>
      rw [htrace] at h
      simp only at h
      split at h
      case h_1 => cases h; cases hfault
      case h_2 => cases h

/-- Parsing in a dialect goes by its rules, so that nothing behind the front makes a difference to it. -/
theorem front_decides (dialect : Dialect) {σ : Type} {rules : Rules σ} {initial : σ}
    (finish : Trace σ → Account)
    (haccount : ∀ reading, dialect.account reading = finish (rules.apply initial reading))
    (hrefuses : ∀ reading done tag fault, rules.Refuses initial reading done tag fault →
      dialect.Refuses reading done tag fault)
    (hfinish : ∀ trace fault, (finish trace).fault = some fault → fault.AtTag →
      trace.fault = some fault)
    {front behind : List UInt8} {path : Path} {map : MethodMap} {table : Table} {error : ReportError}
    (h : (dialect.parse path (front ++ behind) map table).failure = some error)
    (hfault : error.fault.AtTag) :
    ∃ done tag, dialect.Refuses (Reading.ofBytes (front ++ behind)) done tag error.fault ∧
      (tag.ClosesIn front → ∀ behind',
        dialect.Refuses (Reading.ofBytes (front ++ behind')) done tag error.fault ∧
          dialect.parse path (front ++ behind') map table =
            dialect.parse path (front ++ behind) map table) := by
  obtain ⟨fault, hsome, rfl⟩ := Option.map_eq_some_iff.mp h
  rw [haccount] at hsome
  obtain ⟨done, tag, hhere, hdecides⟩ := Rules.front_decides (hfinish _ _ hsome hfault) hfault
  refine ⟨done, tag, hrefuses _ _ _ _ hhere, fun hcloses behind' => ?_⟩
  obtain ⟨hother, hsame⟩ := hdecides hcloses behind'
  refine ⟨hrefuses _ _ _ _ hother, ?_⟩
  rw [parse, parse, haccount, haccount, hsame]

end Dialect

/-- A fault at a tag is always that of the first tag that is refused: the tags before it were handled,
and no later one is. When the tag is closed in a front of the document, then any document with that front
ends with the same state, effects and fault. So does parsing it in any dialect, with any method map, into
any table. -/
theorem refused_tag_decides (front behind : List UInt8) :
    (∀ {σ : Type} (rules : Rules σ) (initial : σ) (fault : ReportFault),
      (rules.apply initial (Reading.ofBytes (front ++ behind))).fault = some fault → fault.AtTag →
      ∃ done tag, rules.Refuses initial (Reading.ofBytes (front ++ behind)) done tag fault ∧
        (tag.ClosesIn front → ∀ behind',
          rules.Refuses initial (Reading.ofBytes (front ++ behind')) done tag fault ∧
          rules.apply initial (Reading.ofBytes (front ++ behind')) =
            rules.apply initial (Reading.ofBytes (front ++ behind)))) ∧
    ∀ (dialect : Dialect) (path : Path) (map : MethodMap) (table : Table) (error : ReportError),
      (dialect.parse path (front ++ behind) map table).failure = some error → error.fault.AtTag →
      ∃ done tag, dialect.Refuses (Reading.ofBytes (front ++ behind)) done tag error.fault ∧
        (tag.ClosesIn front → ∀ behind',
          dialect.Refuses (Reading.ofBytes (front ++ behind')) done tag error.fault ∧
          dialect.parse path (front ++ behind') map table =
            dialect.parse path (front ++ behind) map table) := by
  refine ⟨fun rules initial fault => Rules.front_decides, fun dialect path map table error => ?_⟩
  cases dialect with
  | xunit =>
      exact Dialect.front_decides .xunit Trace.account (fun _ => rfl) (fun _ _ _ _ h => h)
        fun _ _ h _ => h
  | nunit =>
      exact Dialect.front_decides .nunit Trace.account (fun _ => rfl) (fun _ _ _ _ h => h)
        fun _ _ h _ => h
  | vstest =>
      exact Dialect.front_decides .vstest (fun trace => (VSTest.settle trace).account) (fun _ => rfl)
        (fun _ _ _ _ h => h) fun _ _ => Dialect.trace_fault_of_settle

/-- The front of a report whose second tag has an outcome that is not known. -/
def oddFront : List UInt8 :=
  ["<assemblies>", "<test result='Odd' name='m'/>"].flatMap Text.Utf8.encode

/-- The front of the odd report decides how it fails, whatever stands behind it. -/
theorem odd_front_decides :
    let parsed (behind : List UInt8) :=
      Dialect.xunit.parse ⟨"a.xml"⟩ (oddFront ++ behind) .empty .empty
    let error : ReportError := ⟨⟨"a.xml"⟩, .tag 12 (.malformed "test" "result" "Odd"
      "expected one of: Pass, Fail, Skip, NotRun")⟩
    (parsed (Text.Utf8.encode "</assemblies>")).failure = some error ∧
      ∀ behind, parsed behind = parsed (Text.Utf8.encode "</assemblies>") := by
  intro parsed error
  have hfailure : (parsed (Text.Utf8.encode "</assemblies>")).failure = some error := by
    decide +kernel
  refine ⟨hfailure, fun behind => ?_⟩
  obtain ⟨-, hdialects⟩ := refused_tag_decides oddFront (Text.Utf8.encode "</assemblies>")
  obtain ⟨done, tag, hrefuses, hdecides⟩ := hdialects .xunit ⟨"a.xml"⟩ .empty .empty error hfailure trivial
  have hposition : tag.position = 12 := hrefuses.handler.1
  have hcloses : tag.ClosesIn oddFront := by
    unfold Tag.ClosesIn
    rw [hposition]
    decide +kernel
  exact (hdecides hcloses behind).2

end TestMeasures
