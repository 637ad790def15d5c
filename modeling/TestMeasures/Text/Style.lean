/-!
# Styled text

A style is shown by control sequences before and behind a text. Where the output has no colors, the text
stands alone.
-/

namespace TestMeasures.Text

/-- A color of a terminal. -/
inductive Color where
  | red
  | green
  | yellow
deriving Repr, DecidableEq, Inhabited

/-- The number that selects a color for letters. -/
def Color.code : Color → String
  | .red => "31"
  | .green => "32"
  | .yellow => "33"

/-- How a text looks. -/
structure Style where
  color : Option Color := none
  bold : Bool := false
deriving Repr, DecidableEq, Inhabited

/-- The numbers that select a style: its color, then its weight. -/
def Style.codes (style : Style) : List String :=
  (style.color.map Color.code).toList ++ (if style.bold then ["1"] else [])

/-- A text in a style, where the output has colors. -/
def Style.paint (style : Style) (colored : Bool) (text : String) : String :=
  if colored && !style.codes.isEmpty then
    "\x1b[" ++ ";".intercalate style.codes ++ "m" ++ text ++ "\x1b[0m"
  else text

end TestMeasures.Text
