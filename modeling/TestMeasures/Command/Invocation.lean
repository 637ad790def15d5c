import TestMeasures.Command.Run
import TestMeasures.Log.Line

/-!
# Invocations

What the program answers to arguments and an environment: an exit code, the bytes of its output and the
text of its diagnostics.
-/

namespace TestMeasures.Command

/-- The answer to an invocation. -/
structure Answer where
  exitCode : Nat
  output : List UInt8
  diagnostics : String
deriving Repr, DecidableEq, Inhabited

/-- What tells the version. -/
def versionText : String := "testreport 0.1.0\n"

/-- What tells how the program is used. -/
def usageText : String :=
  "Usage: testreport [--config PATH] [--method-map PATH] [--project-key KEY] [--format human|json]\n" ++
    "                  [--color auto|always|never]\n"

namespace Refusal

/-- What is wrong with arguments; nothing where help or the version is asked for. -/
def message? : Refusal → Option String
  | .help => none
  | .version => none
  | .invalidValue => some "an option has no value, or none that it knows"
  | .unknownArgument => some "an argument is unknown"
  | .repeated => some "an option is given twice"
  | .surplusValue => some "an option has a value but takes none"

/-- The exit code of a refusal: asking for help or the version is no failure. -/
def exitCode (refusal : Refusal) : Nat :=
  if refusal.message?.isSome then 2 else 0

/-- The answer to arguments that lead to no run. What they ask for is shown as far as it fits. -/
def answer (refusal : Refusal) (outlet : Outlet) : Answer :=
  let shown := match refusal with
    | .help => usageText
    | .version => versionText
    | _ => ""
  ⟨refusal.exitCode, (outlet.write (Text.Utf8.encode shown)).1,
    refusal.message?.elim "" fun message => "error: " ++ message ++ "\n\n" ++ usageText⟩

end Refusal

/-- The answer of a run. -/
def Ended.answer (ended : Ended) (log : Option String) (colored : Bool) : Answer :=
  ⟨ended.exitCode, ended.written, Log.written log colored ended.events⟩

/-- The answer to arguments in an environment and a file tree. -/
def invoke (tree : FileTree) (environment : Environment) (arguments : List String) (outlet : Outlet) :
    Answer :=
  match Options.read environment arguments with
  | .error refusal => refusal.answer outlet
  | .ok options =>
    let colored := options.colored environment
    (run tree options colored outlet).answer environment.log colored

end TestMeasures.Command
