import TestMeasures.Config.Decode
import TestMeasures.Config.Language
import TestMeasures.FileTree
import TestMeasures.Log.Event
import TestMeasures.Text.Utf8

/-!
# Import configuration

The folder that report patterns start from, and the languages with their patterns, in key order. Keys
that mean nothing are told once, all together, in order.
-/

namespace TestMeasures

/-- A language and its configured reports. -/
structure LanguageConfig where
  language : Language
  reports : Reports
deriving Repr, DecidableEq, Inhabited

/-- What a configuration file says. -/
structure ImportConfig where
  baseDir : Path
  languages : List LanguageConfig
deriving Repr, DecidableEq, Inhabited

/-- Why a configuration cannot be used. -/
inductive ConfigFault where
  | notFound (file : Path)
  | notToml
  | setting (fault : SettingFault)
  | emptyLanguageKey
deriving Repr, DecidableEq, Inhabited

/-- The message of a faulty configuration. -/
def ConfigFault.message : ConfigFault → String
  | .notFound file => "configuration file \"" ++ file.text ++ "\" not found"
  | .notToml => "TOML parse error"
  | .setting fault => fault.message
  | .emptyLanguageKey => "language keys must not be empty"

/-- A configuration that cannot be used, and why. -/
structure ConfigError where
  file : Path
  fault : ConfigFault
deriving Repr, DecidableEq, Inhabited

/-- The messages of an error, outermost first. -/
def ConfigError.chain (error : ConfigError) : List String :=
  ["failed to parse testreport config at `" ++ error.file.text ++ "`", error.fault.message]

namespace ImportConfig

/-- The configuration file that is read unless another is named. -/
def defaultFile : Path := ⟨".config/testreport.toml"⟩

/-- Sorted insertion of a text; one that is there already is not added again. -/
def insertText (text : String) : List String → List String
  | [] => [text]
  | head :: rest =>
    match compare text head with
    | .lt => text :: head :: rest
    | .eq => head :: rest
    | .gt => head :: insertText text rest

/-- The distinct texts of a list in order. -/
def distinct (texts : List String) : List String :=
  texts.foldr insertText []

/-- Sorted insertion of a language's section by key. -/
def insertSection (key : String) (config : LanguageConfig) : List LanguageConfig → List LanguageConfig
  | [] => [config]
  | head :: rest =>
    match compare key head.language.key with
    | .lt => config :: head :: rest
    | .eq => config :: rest
    | .gt => head :: insertSection key config rest

/-- The language of a section. -/
def languageConfig (key : String) (decoded : LanguageSection) : LanguageConfig :=
  ⟨⟨key, decoded.name.getD (Language.ofKey key).name⟩, decoded.reports⟩

/-- The languages of sections, in key order. -/
def languagesOf (sections : List (String × LanguageSection)) : List LanguageConfig :=
  sections.foldl (fun held entry => insertSection entry.1 (languageConfig entry.1 entry.2) held) []

/-- The folder of a configuration file. -/
def folderOf (file : Path) : Path :=
  match file.parent? with
  | some folder => if folder.text = "" then ⟨"."⟩ else folder
  | none => ⟨"."⟩

/-- The configuration that sections say, read from a file. -/
def ofSections (file : Path) (sections : Sections) : Except ConfigFault ImportConfig :=
  if sections.languages.any fun entry => entry.1 == "" then .error .emptyLanguageKey
  else
    .ok ⟨match sections.importing.baseDir with
      | some folder => (folderOf file).join folder
      | none => folderOf file, languagesOf sections.languages⟩

/-- The event that tells unknown keys. -/
def unknownKeysEvent (file : Path) (keys : List String) : Event :=
  let told := match keys with
    | [key] => "key: " ++ key
    | many => "keys:\n" ++ "".intercalate (many.map ("\n  - " ++ ·))
  ⟨.warn, .settings, "in config file " ++ file.text ++ ", ignoring unknown configuration " ++ told⟩

/-- A configuration or what is wrong with it, and the unknown keys that are told on the way. -/
structure Loaded where
  config : Except ConfigError ImportConfig
  unknown : List String

/-- The events that loading tells. -/
def Loaded.events (loaded : Loaded) (file : Path) : List Event :=
  if loaded.unknown.isEmpty then [] else [unknownKeysEvent file loaded.unknown]

/-- The configuration that settings say, read from a file. -/
def ofSettings (file : Path) (settings : List (String × Setting)) : Loaded :=
  match decode settings with
  | .error fault => ⟨.error ⟨file, .setting fault⟩, []⟩
  | .ok decoded => ⟨(ofSections file decoded.value).mapError (⟨file, ·⟩), distinct decoded.unknown⟩

/-- The configuration in the contents of a file. The path that settings are told to come from is given
when the file was read. -/
def ofContents (file : Path) (origin : Option String) (contents : String) : Loaded :=
  match Toml.parse contents with
  | none => ⟨.error ⟨file, .notToml⟩, []⟩
  | some document => ofSettings file (Setting.ofDocument origin document)

/-- The path with `.toml` behind its last name, if it has one. -/
def withExtension? (file : Path) : Option Path :=
  match file.components.getLast? with
  | some (.name name) =>
    some (((file.parent?).getD ⟨""⟩).join ⟨name ++ ".toml"⟩)
  | _ => none

/-- The file that a configuration is read from: the path itself or, if it is no file, with `.toml` behind
it. -/
def locate? (tree : FileTree) (file : Path) : Option Path :=
  if tree.isFile file then some file
  else (withExtension? file).filter tree.isFile

/-- A path without a leading `.` and without pieces that say nothing. -/
def plainPath (path : Path) : String :=
  "/".intercalate ((path.components.filter (· != .current)).map Path.Component.text)

/-- Loads the configuration at a path. -/
def load (tree : FileTree) (file : Path) : Loaded :=
  match locate? tree file with
  | none => ⟨.error ⟨file, .notFound file⟩, []⟩
  | some found =>
    match tree.read found with
    | .error _ => ⟨.error ⟨file, .notFound file⟩, []⟩
    | .ok bytes =>
      ofContents file (some (plainPath found)) (Text.Utf8.decodeLossy (Text.Utf8.dropMark bytes))

/-- The configuration of a language, by its key. -/
def language? (config : ImportConfig) (key : String) : Option LanguageConfig :=
  config.languages.find? fun entry => entry.language.key == key

end ImportConfig

end TestMeasures
