import TestMeasures.Path
import TestMeasures.Measure.Metric

/-!
# The measure store

Measures in the order they were saved. A component holds each metric at most once: saving it again is
refused and changes nothing.
-/

namespace TestMeasures

/-- What a measure is about. -/
inductive Component where
  /-- The project as a whole. -/
  | project (key : String)
  /-- One source file. -/
  | file (path : Path)
deriving Repr, DecidableEq, Inhabited

namespace Component

/-- The file of a component, if it is one. -/
def file? : Component → Option Path
  | .file path => some path
  | .project _ => none

/-- Components are the same when their keys are; files are compared as paths. -/
def same : Component → Component → Bool
  | .project a, .project b => a == b
  | .file a, .file b => a.same b
  | _, _ => false

/-- How a component is named in messages. -/
def text : Component → String
  | .project key => "project `" ++ key ++ "`"
  | .file path => "file `" ++ path.text ++ "`"

end Component

/-- One published figure. -/
structure Measure where
  component : Component
  metric : Metric
  value : Count
deriving Repr, DecidableEq, Inhabited

/-- Whether two measures are the same figure of the same component. -/
def Measure.clashes (a b : Measure) : Bool :=
  a.component.same b.component && a.metric == b.metric

/-- A measure that could not be saved because its component holds the metric already. -/
structure DuplicateMeasure where
  component : Component
  metric : Metric
deriving Repr, DecidableEq, Inhabited

/-- The message of a refused measure. -/
def DuplicateMeasure.message (refused : DuplicateMeasure) : String :=
  "cannot add the same measure twice: `" ++ refused.metric.key ++ "` for " ++ refused.component.text

/-- The measures saved so far, oldest first. -/
structure Store where
  measures : List Measure
deriving Repr, DecidableEq, Inhabited

namespace Store

/-- The store without measures. -/
def empty : Store := ⟨[]⟩

/-- Whether a figure of the same component is held already. -/
def holds (store : Store) (measure : Measure) : Bool :=
  store.measures.any measure.clashes

/-- Saves a measure at the end, or refuses it. -/
def save (store : Store) (measure : Measure) : Except DuplicateMeasure Store :=
  if store.holds measure then .error ⟨measure.component, measure.metric⟩
  else .ok ⟨store.measures ++ [measure]⟩

/-- Saves measures one after the other up to the first that is refused; the ones before it stay. -/
def saveAll (store : Store) : List Measure → Store × Option DuplicateMeasure
  | [] => (store, none)
  | measure :: rest =>
    match store.save measure with
    | .error refused => (store, some refused)
    | .ok saved => saved.saveAll rest

/-- The value of a metric of a component. -/
def get? (store : Store) (component : Component) (metric : Metric) : Option Count :=
  (store.measures.find? fun held =>
    component.same held.component && metric == held.metric).map Measure.value

/-- What is held about a component, oldest first. -/
def measuresFor (store : Store) (component : Component) : List (Metric × Count) :=
  (store.measures.filter fun held => held.component.same component).map fun held =>
    (held.metric, held.value)

/-- The number of measures. -/
def size (store : Store) : Nat :=
  store.measures.length

/-- Whether nothing was saved. -/
def isEmpty (store : Store) : Bool :=
  store.measures.isEmpty

end Store

end TestMeasures
