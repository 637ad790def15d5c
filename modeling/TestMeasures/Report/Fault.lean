import TestMeasures.FileFault
import TestMeasures.Log.Causes
import TestMeasures.Path
import TestMeasures.Report.Tag

/-!
# What can be wrong with a report

Each fault is a cause with its place in the document; the messages are told outermost first, starting
with the report's path.
-/

namespace TestMeasures

/-- Why a report cannot be used. -/
inductive ReportFault where
  /-- The file cannot be opened. -/
  | unopened (fault : FileFault)
  /-- The file can be opened but not read. -/
  | unread (fault : FileFault)
  /-- The document is not well-formed. -/
  | xml (position : Nat) (fault : Xml.XmlFault)
  /-- A rule refused a tag. -/
  | tag (position : Nat) (fault : TagFault)
  /-- The document has no element. -/
  | noRoot (expected : List String)
  /-- An outermost element is not one that the report may have. -/
  | unexpectedRoot (found : String) (expected : List String)
  /-- The document ends while elements are open. -/
  | unclosed (openTags : Nat)
  /-- A result refers to a test that is not defined. -/
  | unknownTest (id : String)
deriving Repr, DecidableEq, Inhabited

namespace ReportFault

/-- The messages of a fault, outermost first. -/
def chain : ReportFault → List String
  | .unopened fault => ["error opening report", fault.message]
  | .unread fault =>
    ["invalid XML at byte 0", "I/O error: " ++ fault.message, fault.message]
  | .xml position fault => ("invalid XML at byte " ++ toString position) :: fault.chain
  | .tag position fault => ["invalid tag at byte " ++ toString position, fault.message]
  | .noRoot expected =>
    ["no root tag found (expected one of: " ++ ", ".intercalate expected ++ ")"]
  | .unexpectedRoot found expected =>
    ["unexpected root tag <" ++ found ++ "> (expected one of: " ++ ", ".intercalate expected ++ ")"]
  | .unclosed openTags =>
    ["unexpected end of document with " ++ toString openTags ++ " unclosed tag(s)"]
  | .unknownTest id => ["test result refers to undefined test id `" ++ id ++ "`"]

end ReportFault

/-- A report that cannot be used, and why. -/
structure ReportError where
  path : Path
  fault : ReportFault
deriving Repr, DecidableEq, Inhabited

namespace ReportError

/-- The messages of an error, outermost first. -/
def chain (error : ReportError) : List String :=
  ("failed to parse test report `" ++ error.path.text ++ "`") :: error.fault.chain

/-- The whole error on one line. -/
def message (error : ReportError) : String :=
  chainText error.chain

end ReportError

end TestMeasures
