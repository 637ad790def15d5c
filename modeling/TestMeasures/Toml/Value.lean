import TestMeasures.Decimal.Binary64

/-!
# TOML values

What a configuration document holds. Points in time are kept as the text they are written as.
-/

namespace TestMeasures.Toml

/-- A value of a configuration document. The entries of a table are in the order they were written. -/
inductive Value where
  | text (value : String)
  | integer (value : Int)
  | number (value : Binary64)
  | truth (value : Bool)
  | moment (text : String)
  | list (items : List Value)
  | table (entries : List (String × Value))
deriving Repr, Inhabited

end TestMeasures.Toml
