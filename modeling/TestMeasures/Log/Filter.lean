import TestMeasures.Decimal.Numeral
import TestMeasures.Log.Event
import TestMeasures.Text.Blank

/-!
# Log filters

A filter is a list of directives, separated by commas. A directive says how much of the events of some
scopes is told: those whose names begin with its target or, without a target, all. Of the directives that
speak about an event the most specific one decides; an event that none speaks about is not told.
-/

namespace TestMeasures.Log

/-- What the events of some scopes must be to be told. -/
structure Directive where
  /-- How the names of the scopes begin. -/
  target : Option String
  /-- The field that an event must carry. -/
  field : Option String
  /-- The number of the least level that is told; at zero nothing is. -/
  verbosity : Nat
deriving Repr, DecidableEq, Inhabited

/-- The directives of a filter; of two that say the same about different verbosities the later counts. -/
structure Filter where
  directives : List Directive
deriving Repr, DecidableEq, Inhabited

namespace Directive

/-- The one field that every event carries. -/
def messageField : String := "message"

/-- Whether a directive speaks about an event. -/
def concerns (directive : Directive) (event : Event) : Bool :=
  (directive.target.all fun target => target.toList.isPrefixOf event.scope.name.toList) &&
    directive.field.all (· == messageField)

/-- How specific a directive is: a longer target counts for more, then a field. -/
def rank (directive : Directive) : Nat :=
  2 * (directive.target.elim 0 fun target => target.utf8ByteSize + 1) +
    (if directive.field.isSome then 1 else 0)

/-- Verbosities by name. -/
def verbosityNames : List (String × Nat) :=
  [("", 1), ("off", 0), ("error", 1), ("warn", 2), ("info", 3), ("debug", 4), ("trace", 5)]

/-- The greatest verbosity. -/
def fullVerbosity : Nat := 5

/-- Reads a verbosity: a number up to five, or a name in any case. -/
def readVerbosity? (text : String) : Option Nat :=
  match (natural? text.toList).filter (· ≤ fullVerbosity) with
  | some number => some number
  | none => (verbosityNames.find? fun entry => Text.sameIgnoringCase entry.1 text).map Prod.snd

/-- A reversed text without the closing brackets at its front. -/
def dropClosing : List Char → List Char
  | ']' :: '\x7d' :: rest => dropClosing rest
  | chars => chars

/-- Reads the part of a directive before the equals sign: a target, or a target and a field between
brackets. -/
def readSubject? (text : String) : Option (String × Option String) :=
  match text.splitOn "[\x7b" with
  | [target] => some (target, none)
  | [target, fields] =>
    match fields.toList.reverse with
    | ']' :: '\x7d' :: _ =>
      let field := String.ofList (dropClosing fields.toList.reverse).reverse
      some (target, if field = "" then none else some field)
    | _ => none
  | _ => none

/-- Reads a directive: a verbosity, a target that is told in full, or a target with its verbosity. -/
def read? (text : String) : Option Directive :=
  match Text.split '=' text with
  | [single] =>
    match readVerbosity? single with
    | some verbosity => some ⟨none, none, verbosity⟩
    | none => some ⟨some single, none, fullVerbosity⟩
  | [subject, verbosity] => do
    let (target, field) ← readSubject? subject
    return ⟨some target, field, ← readVerbosity? verbosity⟩
  | _ => none

end Directive

namespace Filter

/-- Tells what is worth knowing of a run. -/
def standard : Filter := ⟨[⟨none, none, Level.info.number⟩]⟩

/-- Reads a filter. -/
def read? (text : String) : Option Filter :=
  ((Text.split ',' text).mapM Directive.read?).map Filter.mk

/-- The directive that decides about an event. -/
def governing? (filter : Filter) (event : Event) : Option Directive :=
  (filter.directives.filter (·.concerns event)).foldl (fun held next =>
    match held with
    | some best => if best.rank ≤ next.rank then some next else some best
    | none => some next) none

/-- Whether an event is told. -/
def admits (filter : Filter) (event : Event) : Bool :=
  (filter.governing? event).any fun directive => event.level.number ≤ directive.verbosity

end Filter

end TestMeasures.Log
