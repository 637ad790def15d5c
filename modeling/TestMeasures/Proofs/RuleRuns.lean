import Mathlib.Data.List.Forall2
import TestMeasures.Proofs.Outcomes
import TestMeasures.Report.Rules

/-!
# Runs of the rules of a report

`Rules.Steps` is what handlers make of tags one after the other, and `Rules.Stops` says where rules stop, why,
and what is left there. `Rules.follow_run` splits the tags of a document at the first that rules refuse.
`Rules.Steps.tally` is how a count of records goes through a run: what holds of the effects of every
single tag gives one record for each test tag of the whole run.
-/

namespace TestMeasures

/-- One item for each tag of a name, in order: each item goes with the tag and the tags before it. -/
inductive OnePerTag {α : Type} (name : String) (gives : List Tag → Tag → α → Prop) :
    List Tag → List Tag → List α → Prop where
  | nil (before : List Tag) : OnePerTag name gives before [] []
  | other {before tags : List Tag} {tag : Tag} {items : List α} (hname : tag.name ≠ name)
      (hrest : OnePerTag name gives (before ++ [tag]) tags items) :
      OnePerTag name gives before (tag :: tags) items
  | named {before tags : List Tag} {tag : Tag} {item : α} {items : List α} (hname : tag.name = name)
      (hitem : gives before tag item) (hrest : OnePerTag name gives (before ++ [tag]) tags items) :
      OnePerTag name gives before (tag :: tags) (item :: items)

namespace OnePerTag

variable {α β : Type} {name : String} {gives : List Tag → Tag → α → Prop} {before tags : List Tag}
  {items : List α}

/-- There are as many items as tags of the name. -/
theorem length_eq (h : OnePerTag name gives before tags items) :
    items.length = tags.countP (·.name == name) := by
  induction h with
  | nil => rfl
  | other hname _ ih => rw [ih, List.countP_cons_of_neg (by simpa using hname)]
  | named hname _ _ ih => rw [List.length_cons, ih, List.countP_cons_of_pos (by simpa using hname)]

/-- Items that do not depend on the tags before theirs go with the tags of the name. -/
theorem forall₂ {gives : Tag → α → Prop} (h : OnePerTag name (fun _ => gives) before tags items) :
    List.Forall₂ gives (tags.filter (·.name == name)) items := by
  induction h with
  | nil => exact .nil
  | other hname _ ih =>
      rw [List.filter_cons_of_neg (by simpa using hname)]
      exact ih
  | named hname hitem _ ih =>
      rw [List.filter_cons_of_pos (by simpa using hname)]
      exact .cons hitem ih

/-- Items can be replaced by others, one by one. -/
theorem replace (h : OnePerTag name gives before tags items) {others : List β}
    {gives' : List Tag → Tag → β → Prop} {becomes : α → β → Prop}
    (hothers : List.Forall₂ becomes items others)
    (hgives : ∀ before tag item other, gives before tag item → becomes item other →
      gives' before tag other) : OnePerTag name gives' before tags others := by
  induction h generalizing others with
  | nil =>
      cases hothers
      exact .nil _
  | other hname _ ih => exact .other hname (ih hothers)
  | named hname hitem _ ih =>
      cases hothers with
      | cons hbecomes hrest => exact .named hname (hgives _ _ _ _ hitem hbecomes) (ih hrest)

end OnePerTag

section refusals

variable {σ : Type} {read : Tag → σ → Except TagFault (σ × List Effect)} {tag : Tag} {state : σ}

/-- A handler that reads before it changes anything accepts what it can read. -/
theorem Handler.reading_ok_iff {result : σ × List Effect} :
    Handler.reading read tag state = .ok result ↔ read tag state = .ok result := by
  unfold Handler.reading
  cases read tag state <;> simp [liftM, monadLift, MonadLift.monadLift, Except.mapError]

/-- It accepts a tag when it can read what it needs. -/
theorem Handler.reading_accepts_iff :
    (∃ result, Handler.reading read tag state = .ok result) ↔ ∃ result, read tag state = .ok result :=
  exists_congr fun _ => Handler.reading_ok_iff

/-- It refuses what it cannot read, and leaves everything as it was. -/
theorem Handler.reading_error_iff {refusal : TagRefusal σ} :
    Handler.reading read tag state = .error refusal ↔
      ∃ fault, read tag state = .error fault ∧ refusal = ⟨fault, none⟩ := by
  unfold Handler.reading
  cases read tag state <;> simp [liftM, monadLift, MonadLift.monadLift, Except.mapError, eq_comm]

/-- A document that such a handler ends is left in the state in front of the tag, and nothing follows from that. -/
theorem Handler.reading_trace {refusal : TagRefusal σ} (h : Handler.reading read tag state = .error refusal) :
    refusal.trace tag state = ⟨state, [], some (.tag tag.position refusal.fault)⟩ := by
  obtain ⟨fault, -, rfl⟩ := Handler.reading_error_iff.mp h
  rfl

/-- What follows from more tags in front comes first. -/
theorem Trace.behind_behind (trace : Trace σ) (effects others : List Effect) :
    (trace.behind others).behind effects = trace.behind (effects ++ others) := by
  simp only [behind, List.append_assoc]

end refusals

namespace Rules

variable {σ : Type} {rules : Rules σ}

/-- The handler of a tag name is one of those given for it. -/
theorem handler_mem {name : String} {handler : Handler σ} (h : rules.handler? name = some handler) :
    (name, handler) ∈ rules.handlers := by
  obtain ⟨⟨key, found⟩, hfind, rfl⟩ := Option.map_eq_some_iff.mp h
  obtain rfl : key = name := by simpa using List.find?_some hfind
  exact List.mem_of_find?_eq_some hfind

/-- Without a handler, a tag name is none of those that handlers are given for. -/
theorem handler_none {name : String} (h : rules.handler? name = none) :
    ∀ entry ∈ rules.handlers, name ≠ entry.1 := by
  intro entry hentry hname
  have hfind := List.find?_eq_none.mp (Option.map_eq_none_iff.mp h) entry hentry
  simp [hname] at hfind

/-- Tags take the rules from one state to another, with effects. -/
inductive Steps (rules : Rules σ) : σ → List Tag → List Effect → σ → Prop where
  | nil (state : σ) : Steps rules state [] [] state
  | ignore {state final : σ} {tag : Tag} {tags : List Tag} {effects : List Effect}
      (hhandler : rules.handler? tag.name = none) (hrest : Steps rules state tags effects final) :
      Steps rules state (tag :: tags) effects final
  | handle {state after final : σ} {tag : Tag} {tags : List Tag} {effects others : List Effect}
      {handler : Handler σ} (hhandler : rules.handler? tag.name = some handler)
      (hstep : handler tag state = .ok (after, effects)) (hrest : Steps rules after tags others final) :
      Steps rules state (tag :: tags) (effects ++ others) final

/-- What rules leave in the state behind some tags, where they stop. -/
inductive Stops (rules : Rules σ) (ending : Except ReportFault Unit) (sawRoot : Bool) (state : σ)
    (done : List Tag) : List Tag → Trace σ → Prop where
  | complete (hending : ending = .ok ()) (hroot : sawRoot = true ∨ ∃ tag ∈ done, tag.depth = 0) :
      Stops rules ending sawRoot state done [] ⟨state, [], none⟩
  | noRoot (hending : ending = .ok ()) (hroot : sawRoot = false) (hdepth : ∀ tag ∈ done, tag.depth ≠ 0) :
      Stops rules ending sawRoot state done [] ⟨state, [], some (.noRoot rules.roots)⟩
  | broken (fault : ReportFault) (hending : ending = .error fault) :
      Stops rules ending sawRoot state done [] ⟨state, [], some fault⟩
  | unexpected (tag : Tag) (others : List Tag) (hdepth : tag.depth = 0) (hname : tag.name ∉ rules.roots) :
      Stops rules ending sawRoot state done (tag :: others)
        ⟨state, [], some (.unexpectedRoot tag.name rules.roots)⟩
  | refused (tag : Tag) (others : List Tag) (handler : Handler σ) (refusal : TagRefusal σ)
      (hhandler : rules.handler? tag.name = some handler) (hrefusal : handler tag state = .error refusal) :
      Stops rules ending sawRoot state done (tag :: others) (refusal.trace tag state)

/-- One more tag in front does not change where rules stop. -/
theorem Stops.cons {ending : Except ReportFault Unit} {sawRoot : Bool} {state : σ} {tag : Tag}
    {done rest : List Tag} {last : Trace σ}
    (h : rules.Stops ending (sawRoot || tag.depth == 0) state done rest last) :
    rules.Stops ending sawRoot state (tag :: done) rest last := by
  cases h with
  | complete hending hroot =>
      refine .complete hending ?_
      rcases hroot with hroot | ⟨other, hother, hdepth⟩
      · rw [Bool.or_eq_true, beq_iff_eq] at hroot
        exact hroot.imp_right fun hdepth => ⟨tag, List.mem_cons_self, hdepth⟩
      · exact .inr ⟨other, List.mem_cons_of_mem _ hother, hdepth⟩
  | noRoot hending hroot hdepth =>
      rw [Bool.or_eq_false_iff, beq_eq_false_iff_ne] at hroot
      exact .noRoot hending hroot.1 (List.forall_mem_cons.mpr ⟨hroot.2, hdepth⟩)
  | broken fault hending => exact .broken fault hending
  | unexpected tag others hdepth hname => exact .unexpected tag others hdepth hname
  | refused tag others handler refusal hhandler hrefusal =>
      exact .refused tag others handler refusal hhandler hrefusal

/-- Rules handle the tags of a document up to where they stop, and what the document amounts to is what follows
from these tags and what is left there. Outermost elements are root tags until then. -/
theorem follow_run (rules : Rules σ) (ending : Except ReportFault Unit) (sawRoot : Bool) (state : σ)
    (tags : List Tag) :
    ∃ done rest effects middle last, tags = done ++ rest ∧ rules.Steps state done effects middle ∧
      (∀ tag ∈ done, tag.depth = 0 → tag.name ∈ rules.roots) ∧
      rules.Stops ending sawRoot middle done rest last ∧
      rules.follow ending sawRoot state tags = last.behind effects := by
  induction tags generalizing sawRoot state with
  | nil =>
      unfold follow
      split
      case h_1 fault => exact ⟨[], [], [], state, _, rfl, .nil state, by simp, .broken fault rfl, rfl⟩
      case h_2 =>
        cases sawRoot with
        | true => exact ⟨[], [], [], state, _, rfl, .nil state, by simp, .complete rfl (.inl rfl), rfl⟩
        | false => exact ⟨[], [], [], state, _, rfl, .nil state, by simp, .noRoot rfl rfl (by simp), rfl⟩
  | cons tag tags ih =>
      unfold follow
      split
      case isTrue hroot =>
        exact ⟨[], tag :: tags, [], state, _, rfl, .nil state, by simp, .unexpected tag tags hroot.1 hroot.2, rfl⟩
      case isFalse hroot =>
        have htag : tag.depth = 0 → tag.name ∈ rules.roots := by simpa using hroot
        simp only
        split
        case h_1 hhandler =>
          obtain ⟨done, rest, effects, middle, last, rfl, hsteps, hroots, hstops, hfollow⟩ :=
            ih (sawRoot || tag.depth == 0) state
          exact ⟨tag :: done, rest, effects, middle, last, rfl, .ignore hhandler hsteps,
            List.forall_mem_cons.mpr ⟨htag, hroots⟩, hstops.cons, hfollow⟩
        case h_2 handler hhandler =>
          split
          case h_1 refusal hrefusal =>
            exact ⟨[], tag :: tags, [], state, _, rfl, .nil state, by simp,
              .refused tag tags handler refusal hhandler hrefusal, rfl⟩
          case h_2 after effects hstep =>
            obtain ⟨done, rest, others, middle, last, rfl, hsteps, hroots, hstops, hfollow⟩ :=
              ih (sawRoot || tag.depth == 0) after
            exact ⟨tag :: done, rest, effects ++ others, middle, last, rfl, .handle hhandler hstep hsteps,
              List.forall_mem_cons.mpr ⟨htag, hroots⟩, hstops.cons, by rw [hfollow, Trace.behind_behind]⟩

/-- Nothing follows from a tag that rules refuse. -/
def Discards (rules : Rules σ) : Prop :=
  ∀ tag state handler refusal, rules.handler? tag.name = some handler →
    handler tag state = .error refusal → (refusal.trace tag state).effects = []

/-- Rules whose handlers read before they change anything discard what they refuse. -/
theorem discards_of_reading (h : ∀ entry ∈ rules.handlers, ∃ read, entry.2 = .reading read) : rules.Discards := by
  intro tag state handler refusal hhandler hrefusal
  obtain ⟨read, rfl⟩ := h _ (handler_mem hhandler)
  rw [Handler.reading_trace hrefusal]

/-- Such rules leave no effects where they stop. -/
theorem Stops.no_effects {ending : Except ReportFault Unit} {sawRoot : Bool} {state : σ} {done rest : List Tag}
    {last : Trace σ} (hdiscards : rules.Discards) (h : rules.Stops ending sawRoot state done rest last) :
    last.effects = [] := by
  cases h with
  | complete | noRoot | broken | unexpected => rfl
  | refused tag others handler refusal hhandler hrefusal =>
      exact hdiscards tag state handler refusal hhandler hrefusal

/-- Without a fault, rules stop behind all tags, in the state that these lead to. -/
theorem Stops.of_no_fault {ending : Except ReportFault Unit} {sawRoot : Bool} {state : σ} {done rest : List Tag}
    {last : Trace σ} (h : rules.Stops ending sawRoot state done rest last) (hfault : last.fault = none) :
    rest = [] ∧ last.state = state := by
  cases h with
  | complete => exact ⟨rfl, rfl⟩
  | noRoot | broken | unexpected | refused => cases hfault

/-- A document that is read to its end and whose outermost elements, of which there is at least one, are root
tags of the rules. -/
structure Admits (rules : Rules σ) (reading : Reading) : Prop where
  complete : reading.ending = .ok ()
  rooted : ∃ tag ∈ reading.tags, tag.depth = 0
  roots : ∀ tag ∈ reading.tags, tag.depth = 0 → tag.name ∈ rules.roots

/-- Behind tags that rules handle, the handler of the next tag refuses it, and what it leaves ends the document. -/
inductive HandlerRefuses (rules : Rules σ) (initial : σ) (tags : List Tag) (trace : Trace σ) : Prop where
  | mk (done : List Tag) (tag : Tag) (others : List Tag) (effects : List Effect) (state : σ) (handler : Handler σ)
      (refusal : TagRefusal σ) (htags : tags = done ++ tag :: others)
      (hsteps : rules.Steps initial done effects state) (hhandler : rules.handler? tag.name = some handler)
      (hrefusal : handler tag state = .error refusal) (htrace : trace = (refusal.trace tag state).behind effects)

/-- A document that a handler ends has a fault. -/
theorem HandlerRefuses.fault {initial : σ} {tags : List Tag} {trace : Trace σ}
    (h : rules.HandlerRefuses initial tags trace) : ∃ position fault, trace.fault = some (.tag position fault) := by
  obtain ⟨done, tag, others, effects, state, handler, refusal, -, -, -, -, rfl⟩ := h
  exact ⟨tag.position, refusal.fault, rfl⟩

/-- Rules get through a document that they admit, unless a handler refuses a tag. -/
theorem apply_admitted {reading : Reading} (h : rules.Admits reading) (initial : σ) :
    let trace := rules.apply initial reading
    (trace.fault = none ∧ rules.Steps initial reading.tags trace.effects trace.state) ∨
      rules.HandlerRefuses initial reading.tags trace := by
  intro trace
  obtain ⟨done, rest, effects, middle, last, htags, hsteps, -, hstops, htrace⟩ :=
    rules.follow_run reading.ending false initial reading.tags
  change trace = last.behind effects at htrace
  cases hstops with
  | complete =>
      rw [List.append_nil] at htags
      rw [htrace, Trace.behind, List.append_nil]
      exact .inl ⟨rfl, htags ▸ hsteps⟩
  | noRoot _ _ hdepth =>
      obtain ⟨tag, htag, hroot⟩ := h.rooted
      rw [htags, List.append_nil] at htag
      exact absurd hroot (hdepth tag htag)
  | broken fault hending =>
      rw [h.complete] at hending
      cases hending
  | unexpected tag others hdepth hname => exact absurd (h.roots tag (by simp [htags]) hdepth) hname
  | refused tag others handler refusal hhandler hrefusal =>
      exact .inr (.mk done tag others effects middle handler refusal htags hsteps hhandler hrefusal htrace)

/-- A document that rules admit and end without a fault is handled as a whole. -/
theorem Admits.steps_of_no_fault {reading : Reading} (h : rules.Admits reading) {initial : σ}
    (hnone : (rules.apply initial reading).fault = none) :
    rules.Steps initial reading.tags (rules.apply initial reading).effects (rules.apply initial reading).state := by
  rcases rules.apply_admitted h initial with ⟨-, hsteps⟩ | hrefuses
  · exact hsteps
  · obtain ⟨position, fault, hfault⟩ := hrefuses.fault
    rw [hnone] at hfault
    cases hfault

/-- The records of effects that follow one another follow one another. -/
theorem effect_entries_append (map : MethodMap) (effects others : List Effect) :
    effectEntries map (effects ++ others) = effectEntries map effects ++ effectEntries map others :=
  List.filterMap_append

/-- What every handler does that is applied to a tag in the state that the tags before it lead to: a test
tag has one record, any other none, and the state is the one that the tag leads to. -/
structure Tallies (rules : Rules σ) (map : MethodMap) (name : String) (stateBehind : List Tag → σ)
    (gives : List Tag → Tag → ResultKey × TestRecord → Prop) : Prop where
  ignored : ∀ before tag, rules.handler? tag.name = none →
    tag.name ≠ name ∧ stateBehind (before ++ [tag]) = stateBehind before
  handled : ∀ before tag handler after effects, rules.handler? tag.name = some handler →
    handler tag (stateBehind before) = .ok (after, effects) →
      after = stateBehind (before ++ [tag]) ∧
        (tag.name = name ∧ (∃ entry, effectEntries map effects = [entry] ∧ gives before tag entry) ∨
          tag.name ≠ name ∧ effectEntries map effects = [])

/-- What handlers do with single tags adds up over a run. -/
theorem Steps.tally {map : MethodMap} {name : String} {stateBehind : List Tag → σ}
    {gives : List Tag → Tag → ResultKey × TestRecord → Prop}
    (htallies : rules.Tallies map name stateBehind gives) {before tags : List Tag} {final : σ}
    {effects : List Effect} (h : rules.Steps (stateBehind before) tags effects final) :
    OnePerTag name gives before tags (effectEntries map effects) := by
  generalize hstate : stateBehind before = state at h
  induction h generalizing before with
  | nil => exact .nil _
  | @ignore _ _ tag _ _ hhandler hrest ih =>
      obtain ⟨hname, hbehind⟩ := htallies.ignored before tag hhandler
      exact .other hname (ih (hbehind.trans hstate))
  | @handle _ _ _ tag _ _ _ handler hhandler hstep hrest ih =>
      subst hstate
      obtain ⟨hafter, hentries⟩ := htallies.handled before tag handler _ _ hhandler hstep
      have hothers := ih hafter.symm
      rw [effect_entries_append]
      rcases hentries with ⟨hname, entry, hentry, hgives⟩ | ⟨hname, hnone⟩
      · rw [hentry]
        exact .named hname hgives hothers
      · rw [hnone]
        exact .other hname hothers

end Rules

end TestMeasures
