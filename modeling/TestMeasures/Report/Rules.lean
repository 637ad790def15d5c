import TestMeasures.Log.Event
import TestMeasures.Report.Reader
import TestMeasures.Results.MethodMap
import TestMeasures.Results.Table

/-!
# Rules for the tags of a report

A report format is a set of root tags and a table of handlers. A handler looks at one tag and at the
format's own state, and answers the new state and what follows from the tag: notes for the log, and test
records charged to qualified method names. One that refuses a tag answers what it has left by then. What
follows from a document does not depend on the results gathered before; it is applied to a table
afterwards, record by record.
-/

namespace TestMeasures

/-- What follows from a tag. -/
inductive Effect where
  /-- Something to tell in the log. -/
  | note (scope : Scope) (message : String)
  /-- A record of the test method of a qualified name. -/
  | charge (name : String) (record : TestRecord)
deriving Repr, DecidableEq, Inhabited

/-- Why a handler refuses a tag, and what it leaves: the state and what has followed from the tag by then, or
nothing if it has changed nothing. -/
structure TagRefusal (σ : Type) where
  fault : TagFault
  left : Option (σ × List Effect) := none

/-- An attribute that cannot be used changes nothing by itself. -/
instance {σ : Type} : MonadLift (Except TagFault) (Except (TagRefusal σ)) where
  monadLift := Except.mapError fun fault => ⟨fault, none⟩

/-- Looks at a tag and answers the new state and what follows, or why the tag is refused. -/
abbrev Handler (σ : Type) := Tag → σ → Except (TagRefusal σ) (σ × List Effect)

/-- The handler that reads everything it needs from a tag before it changes anything. -/
def Handler.reading {σ : Type} (read : Tag → σ → Except TagFault (σ × List Effect)) : Handler σ :=
  fun tag state => liftM (read tag state)

/-- A report format: the tags a document may start with, and the handlers by tag name. -/
structure Rules (σ : Type) where
  roots : List String
  handlers : List (String × Handler σ)

/-- What a document amounts to: the last state, what follows in order, and the fault that ended it. -/
structure Trace (σ : Type) where
  state : σ
  effects : List Effect
  fault : Option ReportFault

/-- What a document amounts to that ends with the refusal of a tag in a state. -/
def TagRefusal.trace {σ : Type} (refusal : TagRefusal σ) (tag : Tag) (state : σ) : Trace σ :=
  let (left, effects) := refusal.left.getD (state, [])
  ⟨left, effects, some (.tag tag.position refusal.fault)⟩

/-- What a document amounts to behind tags that something follows from. -/
def Trace.behind {σ : Type} (effects : List Effect) (trace : Trace σ) : Trace σ :=
  { trace with effects := effects ++ trace.effects }

namespace Rules

variable {σ : Type}

/-- The handler of a tag name: the first one given for it. -/
def handler? (rules : Rules σ) (name : String) : Option (Handler σ) :=
  (rules.handlers.find? fun entry => entry.1 == name).map Prod.snd

/-- Applies the rules to the tags of a document in order. A tag at the top must be a root tag; the first
fault ends the document, and what follows from the tags before it stands. -/
def follow (rules : Rules σ) (ending : Except ReportFault Unit) :
    (sawRoot : Bool) → σ → List Tag → Trace σ
  | sawRoot, state, [] =>
    match ending with
    | .error fault => ⟨state, [], some fault⟩
    | .ok () => ⟨state, [], if sawRoot then none else some (.noRoot rules.roots)⟩
  | sawRoot, state, tag :: tags =>
    if tag.depth = 0 ∧ tag.name ∉ rules.roots then
      ⟨state, [], some (.unexpectedRoot tag.name rules.roots)⟩
    else
      let saw := sawRoot || tag.depth == 0
      match rules.handler? tag.name with
      | none => rules.follow ending saw state tags
      | some handler =>
        match handler tag state with
        | .error refusal => refusal.trace tag state
        | .ok (after, effects) => (rules.follow ending saw after tags).behind effects

/-- Applies the rules to a whole document. -/
def apply (rules : Rules σ) (initial : σ) (reading : Reading) : Trace σ :=
  rules.follow reading.ending false initial reading.tags

end Rules

/-- The key a record is charged to, and the event that tells that no file is known. -/
def attribution (map : MethodMap) (name : String) : ResultKey × List Event :=
  match map.get? name with
  | some file => (.file file, [])
  | none =>
    (.unattributed,
      [⟨.debug, .attribution, "test method " ++ name ++
        " cannot be mapped to a source file, counting it towards the project only"⟩])

namespace Effect

/-- The event that an effect is told by, if any. -/
def events (map : MethodMap) : Effect → List Event
  | .note scope message => [⟨.debug, scope, message⟩]
  | .charge name _ => (attribution map name).2

/-- The key and record that an effect charges, if it does. -/
def entry? (map : MethodMap) : Effect → Option (ResultKey × TestRecord)
  | .note _ _ => none
  | .charge name record => some ((attribution map name).1, record)

end Effect

/-- The events of effects, in order. -/
def effectEvents (map : MethodMap) (effects : List Effect) : List Event :=
  effects.flatMap (Effect.events map)

/-- The records of effects with their keys, in order. -/
def effectEntries (map : MethodMap) (effects : List Effect) : List (ResultKey × TestRecord) :=
  effects.filterMap (Effect.entry? map)

namespace Table

/-- Charges records to their keys one after the other. -/
def addEntries (table : Table) (entries : List (ResultKey × TestRecord)) : Table :=
  entries.foldl (fun sum entry => sum.addRecord entry.1 entry.2) table

/-- Charges the records of effects. -/
def applyEffects (table : Table) (map : MethodMap) (effects : List Effect) : Table :=
  table.addEntries (effectEntries map effects)

end Table

end TestMeasures
