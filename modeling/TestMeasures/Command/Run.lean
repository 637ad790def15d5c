import TestMeasures.Command.Options
import TestMeasures.Command.Summary
import TestMeasures.Config.MethodMapFile

/-!
# A run

A run loads its configuration and method map, imports every configured language in key order into one
store, and writes a summary piece by piece. Only what cannot be set up or written fails a run; a language
that cannot be imported does not.
-/

namespace TestMeasures.Command

/-- What keeps a run from importing anything. -/
inductive SetupError where
  | config (error : ConfigError)
  | methodMap (error : MethodMapError)
deriving Repr, DecidableEq, Inhabited

/-- What a run works with once it is set up. -/
structure Setup where
  config : ImportConfig
  map : MethodMap
deriving Repr, DecidableEq, Inhabited

/-- Loads the method map of a run; without one nothing is mapped. -/
def loadMap (tree : FileTree) : Option Path → Except MethodMapError MethodMap
  | none => .ok .empty
  | some path => MethodMap.load tree path

/-- Sets a run up: the configuration first, then the method map. -/
def Setup.load (tree : FileTree) (options : Options) : Except SetupError Setup × List Event :=
  let loaded := ImportConfig.load tree options.config
  let events := loaded.events options.config
  match loaded.config with
  | .error error => (.error (.config error), events)
  | .ok config =>
    match loadMap tree options.methodMap with
    | .error error => (.error (.methodMap error), events)
    | .ok map => (.ok ⟨config, map⟩, events)

/-- The event that opens the import. -/
def Setup.opening (setup : Setup) : Event :=
  ⟨.debug, .running, "loaded " ++ toString setup.map.size ++
    " method mapping(s), resolving reports against `" ++ setup.config.baseDir.text ++ "`"⟩

/-- Languages whose import has ended, what they share, and the log. -/
structure Progress where
  languages : List (Language × ImportOutcome)
  session : Session
  events : List Event
deriving Repr, DecidableEq, Inhabited

namespace Progress

/-- No language is imported yet. -/
def initial : Progress := ⟨[], .initial, []⟩

/-- Imports one more language. -/
def step (space : Workspace) (project : String) (progress : Progress) (entry : LanguageConfig) :
    Progress :=
  let done := entry.language.importFrom (.ofReports space entry.reports) project progress.session
  ⟨progress.languages ++ [(entry.language, done.outcome)], done.session,
    progress.events ++ done.events⟩

/-- The summary of what was imported. -/
def summary (progress : Progress) (project : String) : Summary :=
  ⟨project, progress.languages, progress.session⟩

end Progress

/-- Imports languages in order. -/
def importAll (space : Workspace) (project : String) (languages : List LanguageConfig) : Progress :=
  languages.foldl (Progress.step space project) .initial

/-- Imports what a setup configures. -/
def Setup.import (setup : Setup) (tree : FileTree) (project : String) : Progress :=
  importAll ⟨tree, setup.config.baseDir, setup.map⟩ project setup.config.languages

/-- The pieces that a summary is written in, one after the other. -/
def Format.pieces (format : Format) (colored : Bool) (summary : Summary) : List String :=
  match format with
  | .human => summary.lines colored
  | .json => summary.document.pieces ++ ["\n"]

/-- A summary in a format. -/
def Format.render (format : Format) (colored : Bool) (summary : Summary) : String :=
  "".intercalate (format.pieces colored summary)

/-- What a run has to write, piece by piece, or why it has nothing, and the events up to there. -/
structure Prepared where
  pieces : Except SetupError (List String)
  events : List Event

/-- All of a run but the writing. -/
def prepare (tree : FileTree) (options : Options) (colored : Bool) : Prepared :=
  match Setup.load tree options with
  | (.error error, events) => ⟨.error error, events⟩
  | (.ok setup, events) =>
    let progress := setup.import tree options.project
    ⟨.ok (options.format.pieces colored (progress.summary options.project)),
      events ++ [setup.opening] ++ progress.events⟩

/-- What ends a run with a failure. -/
inductive Failure where
  | setup (error : SetupError)
  /-- The summary could not be written, in the words of the system. -/
  | unwritten (reason : String)
deriving Repr, DecidableEq, Inhabited

namespace Failure

/-- The message of a failure and those of its causes, outermost first. -/
def messages (failure : Failure) (colored : Bool) : List String :=
  match failure with
  | .setup (.config error) =>
    ["failed to parse config at `" ++ Summary.emphasis.paint colored error.file.text ++ "`",
      error.fault.message]
  | .setup (.methodMap error) => error.chain
  | .unwritten reason => ["failed to write import report", reason]

/-- The event that tells a cause. -/
def causeEvent (message : String) : Event :=
  ⟨.error, .continuation, "\nCaused by:\n  " ++ message⟩

/-- The events that tell a failure. -/
def events (failure : Failure) (colored : Bool) : List Event :=
  match failure.messages colored with
  | [] => []
  | message :: causes => ⟨.error, .failures, message⟩ :: causes.map causeEvent

/-- The exit code of a failed run. -/
def exitCode : Failure → Nat
  | .setup _ => 96
  | .unwritten _ => 110

end Failure

/-- Where a summary is written: some bytes fit, or any number, and then writing fails for a reason. -/
structure Outlet where
  room : Option Nat
  reason : String
deriving Repr, DecidableEq, Inhabited

/-- An outlet that takes everything. -/
def Outlet.unlimited : Outlet := ⟨none, ""⟩

/-- An outlet on a full device. -/
def Outlet.full : Outlet := ⟨some 0, "No space left on device (os error 28)"⟩

/-- The bytes that an outlet takes, and whether these are all. -/
def Outlet.write (outlet : Outlet) (bytes : List UInt8) : List UInt8 × Bool :=
  match outlet.room with
  | none => (bytes, true)
  | some room => (bytes.take room, bytes.length ≤ room)

/-- The outlet once it has taken bytes. -/
def Outlet.behind (outlet : Outlet) (bytes : List UInt8) : Outlet :=
  { outlet with room := outlet.room.map (· - bytes.length) }

/-- Writes pieces one after the other, up to the first that does not fit as a whole. -/
def Outlet.writeAll (outlet : Outlet) : List (List UInt8) → List UInt8 × Bool
  | [] => ([], true)
  | piece :: rest =>
    match outlet.write piece with
    | (taken, true) =>
      let others := (outlet.behind taken).writeAll rest
      (taken ++ others.1, others.2)
    | stopped => stopped

/-- A run that has ended. -/
structure Ended where
  exitCode : Nat
  written : List UInt8
  events : List Event
deriving Repr, DecidableEq, Inhabited

/-- The end of a run that failed. -/
def Failure.ended (failure : Failure) (colored : Bool) (written : List UInt8) (before : List Event) :
    Ended :=
  ⟨failure.exitCode, written, before ++ failure.events colored⟩

/-- A whole run. -/
def run (tree : FileTree) (options : Options) (colored : Bool) (outlet : Outlet) : Ended :=
  let prepared := prepare tree options colored
  match prepared.pieces with
  | .error error => (Failure.setup error).ended colored [] prepared.events
  | .ok pieces =>
    match outlet.writeAll (pieces.map Text.Utf8.encode) with
    | (written, true) => ⟨0, written, prepared.events⟩
    | (written, false) => (Failure.unwritten outlet.reason).ended colored written prepared.events

end TestMeasures.Command
