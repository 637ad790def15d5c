/-!
# Languages

A language has a short key, used in configuration, and a name, used in messages.
-/

namespace TestMeasures

/-- A language whose test reports are imported. -/
structure Language where
  key : String
  name : String
deriving Repr, DecidableEq, Inhabited

namespace Language

/-- C#. -/
def cSharp : Language := ⟨"cs", "C#"⟩

/-- Visual Basic .NET. -/
def visualBasic : Language := ⟨"vbnet", "VB.NET"⟩

/-- The language of a key, named after the key unless it is a well-known one. -/
def ofKey (key : String) : Language :=
  if key = cSharp.key then cSharp
  else if key = visualBasic.key then visualBasic
  else ⟨key, key⟩

end Language

end TestMeasures
