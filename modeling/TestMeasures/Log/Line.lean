import TestMeasures.Log.Filter
import TestMeasures.Text.Style

/-!
# Log lines

An admitted event is written on a line of its own, its message behind its level. Continuations carry no
level.
-/

namespace TestMeasures.Log

/-- The word for a level. -/
def levelWord : Level → String
  | .error => "error"
  | .warn => "warning"
  | .info => "info"
  | .debug => "debug"

/-- The look of the word for a level. -/
def levelStyle : Level → Text.Style
  | .error => { color := some .red, bold := true }
  | .warn => { color := some .yellow, bold := true }
  | .info => { bold := true }
  | .debug => { bold := true }

/-- The line of an event. -/
def line (colored : Bool) (event : Event) : String :=
  (if event.scope = .continuation then ""
    else (levelStyle event.level).paint colored (levelWord event.level) ++ ": ") ++
    event.message ++ "\n"

/-- The filter that a variable asks for, and an event if it asks for none that can be read. An absent or
empty variable asks for the standard filter. -/
def chosenFilter (told : Option String) : Filter × List Event :=
  let text := told.getD ""
  if text = "" then (.standard, [])
  else
    match Filter.read? text with
    | some filter => (filter, [])
    | none =>
      (.standard, [⟨.warn, .output, "ignoring invalid TESTREPORT_LOG value `" ++ text ++ "`"⟩])

/-- The lines of the events that a filter admits. -/
def lines (filter : Filter) (colored : Bool) (events : List Event) : String :=
  "".intercalate ((events.filter filter.admits).map (line colored))

/-- What is logged of events when a variable asks for a filter. -/
def written (told : Option String) (colored : Bool) (events : List Event) : String :=
  let chosen := chosenFilter told
  lines chosen.1 colored (chosen.2 ++ events)

end TestMeasures.Log
