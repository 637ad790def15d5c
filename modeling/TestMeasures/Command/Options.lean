import TestMeasures.Config.ImportConfig

/-!
# Options of a run

What the command line and the environment say about a run. Options have long names only and take one
value, as the next argument or behind an equals sign; each may be given once. The command line counts
before the environment.
-/

namespace TestMeasures.Command

/-- How the summary of a run is written. -/
inductive Format where
  | human
  | json
deriving Repr, DecidableEq, Inhabited

/-- When output is colored. -/
inductive Coloring where
  /-- Where the environment asks for it. -/
  | auto
  | always
  | never
deriving Repr, DecidableEq, Inhabited

/-- The format of a name. -/
def Format.ofName? : String → Option Format
  | "human" => some .human
  | "json" => some .json
  | _ => none

/-- The coloring of a name. -/
def Coloring.ofName? : String → Option Coloring
  | "auto" => some .auto
  | "always" => some .always
  | "never" => some .never
  | _ => none

/-- What a run is told to do. -/
structure Options where
  config : Path := ImportConfig.defaultFile
  methodMap : Option Path := none
  project : String := "project"
  format : Format := .human
  coloring : Coloring := .auto
deriving Repr, DecidableEq, Inhabited

/-- Why a command line leads to no run. -/
inductive Refusal where
  /-- Help is asked for. -/
  | help
  /-- The version is asked for. -/
  | version
  /-- A value is missing, or is none of those that its option knows. -/
  | invalidValue
  | unknownArgument
  /-- An option is given twice. -/
  | repeated
  /-- A value behind an option that takes none. -/
  | surplusValue
deriving Repr, DecidableEq, Inhabited

/-- An option that takes a value. -/
inductive Parameter where
  | config
  | methodMap
  | project
  | format
  | coloring
deriving Repr, DecidableEq, Inhabited

/-- What stands behind the two dashes of a long argument. -/
inductive LongName where
  | help
  | version
  | parameter (parameter : Parameter)
deriving Repr, DecidableEq, Inhabited

/-- The meaning of a long name. -/
def LongName.ofText? : String → Option LongName
  | "help" => some .help
  | "version" => some .version
  | "config" => some (.parameter .config)
  | "method-map" => some (.parameter .methodMap)
  | "project-key" => some (.parameter .project)
  | "format" => some (.parameter .format)
  | "color" => some (.parameter .coloring)
  | _ => none

/-- What the arguments read so far say. -/
structure Given where
  config : Option Path := none
  methodMap : Option Path := none
  project : Option String := none
  format : Option Format := none
  coloring : Option Coloring := none
deriving Repr, DecidableEq, Inhabited

namespace Given

/-- A value where none was given. -/
def once {α : Type} (held : Option α) (read : Option α) : Except Refusal (Option α) :=
  if held.isSome then .error .repeated
  else
    match read with
    | none => .error .invalidValue
    | some value => .ok (some value)

/-- Takes the value of an option. -/
def put (given : Given) (parameter : Parameter) (value : String) : Except Refusal Given :=
  match parameter with
  | .config => (once given.config (some ⟨value⟩)).map ({ given with config := · })
  | .methodMap => (once given.methodMap (some ⟨value⟩)).map ({ given with methodMap := · })
  | .project => (once given.project (some value)).map ({ given with project := · })
  | .format => (once given.format (Format.ofName? value)).map ({ given with format := · })
  | .coloring => (once given.coloring (Coloring.ofName? value)).map ({ given with coloring := · })

/-- The options that arguments say. -/
def options (given : Given) : Options where
  config := given.config.getD ImportConfig.defaultFile
  methodMap := given.methodMap
  project := given.project.getD "project"
  format := given.format.getD .human
  coloring := given.coloring.getD .auto

end Given

/-- An option that was read last, and its value if that was read too. It is looked into when the next
option is read, and not at all if that is unknown. -/
structure Pending where
  parameter : Parameter
  value : Option String
deriving Repr, DecidableEq, Inhabited

/-- Looks into the option that was read last. -/
def settle (given : Given) : Option Pending → Except Refusal Given
  | none => .ok given
  | some ⟨_, none⟩ => .error .invalidValue
  | some ⟨parameter, some value⟩ => given.put parameter value

/-- What an argument looks like. -/
inductive Argument where
  /-- Two dashes: no option follows. -/
  | divider
  | long (name : String) (value : Option String)
  /-- The letters behind a dash; there is at least one. -/
  | short (letters : List Char)
  | plain (text : String)
deriving Repr, DecidableEq, Inhabited

/-- Cuts the text behind two dashes at its first equals sign. -/
def longOf (chars : List Char) : Argument :=
  let name := String.ofList (chars.takeWhile (· != '='))
  match chars.dropWhile (· != '=') with
  | _ :: value => .long name (some (String.ofList value))
  | [] => .long name none

/-- The shape of an argument. -/
def Argument.ofText (text : String) : Argument :=
  match text.toList with
  | ['-', '-'] => .divider
  | '-' :: '-' :: rest => longOf rest
  | ['-'] => .plain text
  | '-' :: letters => .short letters
  | _ => .plain text

/-- What the first of some letters behind a dash asks for. -/
def shortRefusal? : List Char → Option Refusal
  | 'h' :: _ => some .help
  | 'V' :: _ => some .version
  | _ => none

/-- Ends the reading of arguments with a refusal once the last option was looked into. -/
def settleThen (given : Given) (pending : Option Pending) (refusal : Refusal) : Except Refusal Given :=
  match settle given pending with
  | .error earlier => .error earlier
  | .ok _ => .error refusal

/-- Reads arguments up to the first that ends the reading. -/
def readArguments (given : Given) (pending : Option Pending) : List String → Except Refusal Given
  | [] => settle given pending
  | argument :: rest =>
    match Argument.ofText argument with
    | .divider => if rest.isEmpty then settle given pending else .error .unknownArgument
    | .long name value =>
      match LongName.ofText? name, value with
      | none, _ => .error .unknownArgument
      | some .help, none => settleThen given pending .help
      | some .version, none => settleThen given pending .version
      | some .help, some _ => .error .surplusValue
      | some .version, some _ => .error .surplusValue
      | some (.parameter parameter), none =>
        match settle given pending with
        | .error refusal => .error refusal
        | .ok settled => readArguments settled (some ⟨parameter, none⟩) rest
      | some (.parameter parameter), some text =>
        match settle given pending with
        | .error refusal => .error refusal
        | .ok settled =>
          match settled.put parameter text with
          | .error refusal => .error refusal
          | .ok known => readArguments known none rest
    | .short letters =>
      match shortRefusal? letters with
      | some refusal => settleThen given pending refusal
      | none => .error .unknownArgument
    | .plain text =>
      match pending with
      | some ⟨parameter, none⟩ => readArguments given (some ⟨parameter, some text⟩) rest
      | _ => .error .unknownArgument

/-- What the environment says about a run; an absent variable says nothing. -/
structure Environment where
  config : Option String := none
  coloring : Option String := none
  /-- The filter of the log. -/
  log : Option String := none
  /-- Whether output is colored that is not told to be or not to be. -/
  forcesColors : Bool := false
deriving Repr, DecidableEq, Inhabited

namespace Environment

/-- Whether the first of two variables that is there asks for colors: by any text but `false` and zero in
the one, by any text but a single `0` in the other. -/
def forced (first second : Option String) : Bool :=
  match first, second with
  | some text, _ => text != "false" && natural? text.toList != some 0
  | none, some text => text != "0"
  | none, none => false

/-- The environment that variables make. -/
def ofVariables (valueOf : String → Option String) : Environment where
  config := valueOf "TESTREPORT_CONFIG"
  coloring := valueOf "TESTREPORT_COLOR"
  log := valueOf "TESTREPORT_LOG"
  forcesColors := forced (valueOf "FORCE_COLOR") (valueOf "CLICOLOR_FORCE")

end Environment

/-- What arguments say, completed by a variable where an option was not given. -/
def Given.complete (given : Given) (parameter : Parameter) (absent : Bool) (told : Option String) :
    Except Refusal Given :=
  match absent, told with
  | true, some value => given.put parameter value
  | _, _ => .ok given

/-- The options of a run. -/
def Options.read (environment : Environment) (arguments : List String) : Except Refusal Options := do
  let given ← readArguments {} none arguments
  let given ← given.complete .config given.config.isNone environment.config
  let given ← given.complete .coloring given.coloring.isNone environment.coloring
  return given.options

/-- Whether the output of a run is colored. -/
def Options.colored (options : Options) (environment : Environment) : Bool :=
  match options.coloring with
  | .auto => environment.forcesColors
  | .always => true
  | .never => false

end TestMeasures.Command
