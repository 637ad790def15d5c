/-!
# Chains of causes

A failure is told as its own message followed by the messages of its causes, outermost first.
-/

namespace TestMeasures

/-- A failure's message and those of its causes on one line. -/
def chainText (messages : List String) : String :=
  ": ".intercalate messages

end TestMeasures
