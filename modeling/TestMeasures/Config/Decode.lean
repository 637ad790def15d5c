import TestMeasures.Config.Setting
import TestMeasures.Import.Reports
import TestMeasures.Text.Quoted

/-!
# Decoding settings

An import section and one section per language, each a table or a list of its fields in order. Keys that
mean nothing are collected by their dotted names. The first value of the wrong kind ends the decoding and
is named by the keys that lead to it.
-/

namespace TestMeasures

/-- The import section. -/
structure ImportSection where
  baseDir : Option Path := none
deriving Repr, DecidableEq, Inhabited

/-- The section of a language. -/
structure LanguageSection where
  name : Option String := none
  reports : Reports := {}
deriving Repr, DecidableEq, Inhabited

/-- What settings say. -/
structure Sections where
  importing : ImportSection := {}
  languages : List (String × LanguageSection) := []
deriving Repr, DecidableEq, Inhabited

/-- A step to a value: a key or a place in a list. -/
inductive Step where
  | key (name : String)
  | place (index : Nat)
deriving Repr, DecidableEq, Inhabited

/-- Names a value by the steps to it, keys separated by points. -/
def stepsText : List Step → String
  | [] => "."
  | steps =>
    let texts := steps.map fun
      | .key name => (".", name)
      | .place index => ("", "[" ++ toString index ++ "]")
    match texts with
    | [] => ""
    | (_, first) :: rest => rest.foldl (fun text next => text ++ next.1 ++ next.2) first

/-- Names a value by the steps to it from the inside out; a point stands before everything but brackets
and nothing. -/
def keyText : List Step → String
  | [] => ""
  | step :: rest =>
    let inner := keyText rest
    match step with
    | .place index => "[" ++ toString index ++ "]" ++ inner
    | .key name =>
      if inner = "" ∨ inner.toList.head? = some '[' then name ++ inner else name ++ "." ++ inner

/-- A value of the wrong kind: what it is and what it should be. Where a text was wanted, the file of the
value is told if it is known. -/
inductive KindFault where
  | notText (found : String) (origin : Option String)
  | wrongKind (found : String) (expected : String)
deriving Repr, DecidableEq, Inhabited

/-- A value of the wrong kind and the steps to it. -/
structure SettingFault where
  steps : List Step
  fault : KindFault
deriving Repr, DecidableEq, Inhabited

namespace SettingFault

/-- The message of a fault, without the steps in front. -/
def reason (fault : SettingFault) : String :=
  match fault.fault with
  | .notText found origin =>
    "invalid type: " ++ found ++ ", expected a string for key `" ++ keyText fault.steps ++ "`" ++
      (match origin with
        | some file => " in " ++ file
        | none => "")
  | .wrongKind found expected => "invalid type: " ++ found ++ ", expected " ++ expected

/-- The message of a fault. -/
def message (fault : SettingFault) : String :=
  stepsText fault.steps ++ ": " ++ fault.reason

/-- The same fault seen from one step further out. -/
def behind (step : Step) (fault : SettingFault) : SettingFault :=
  { fault with steps := step :: fault.steps }

end SettingFault

/-- A number in a message has a point. -/
def pointedText (number : Binary64) : String :=
  let text := number.plainText
  if number.isFinite ∧ '.' ∉ text.toList then text ++ ".0" else text

namespace Setting

/-- What a setting is called in messages. -/
def kind : Setting → String
  | .absent => "unit value"
  | .truth value => "boolean `" ++ (if value then "true" else "false") ++ "`"
  | .integer value => "integer `" ++ toString value ++ "`"
  | .number value => "floating point `" ++ pointedText value ++ "`"
  | .text value => "string " ++ Text.quoted value
  | .list _ _ => "sequence"
  | .table _ _ => "map"

/-- Refuses a setting of the wrong kind. -/
def refuse {α : Type} (setting : Setting) (expected : String) : Except SettingFault α :=
  .error ⟨[], .wrongKind setting.kind expected⟩

/-- The text of a setting; numbers and truth values are written out. -/
def asText : Setting → Except SettingFault String
  | .text value => .ok value
  | .truth value => .ok (if value then "true" else "false")
  | .integer value => .ok (toString value)
  | .number value => .ok value.plainText
  | .absent => .error ⟨[], .notText "unit value" none⟩
  | .list origin _ => .error ⟨[], .notText "sequence" origin⟩
  | .table origin _ => .error ⟨[], .notText "map" origin⟩

/-- The text of a setting that may be absent. -/
def asText? : Setting → Except SettingFault (Option String)
  | .absent => .ok none
  | other => other.asText.map some

/-- The texts of list items from a place on. -/
def textsFrom (place : Nat) : List Setting → Except SettingFault (List String)
  | [] => .ok []
  | item :: rest =>
    match item.asText with
    | .error fault => .error (fault.behind (.place place))
    | .ok read => (textsFrom (place + 1) rest).map (read :: ·)

/-- The texts of a list. -/
def asTexts : Setting → Except SettingFault (List String)
  | .list _ items => textsFrom 0 items
  | other => other.refuse "a sequence"

end Setting

/-- Reads a setting into a section. -/
abbrev Field (σ : Type) := Setting → σ → Except SettingFault σ

/-- A section's fields in order, by key. -/
abbrev Fields (σ : Type) := List (String × Field σ)

/-- A decoded value and the dotted names of the keys that meant nothing. -/
structure Decoded (α : Type) where
  value : α
  unknown : List String
deriving Repr, Inhabited

/-- Decodes the entries of a section's table in order, given the dotted name of the table. -/
def decodeEntries {σ : Type} (fields : Fields σ) (above : String) :
    List (String × Setting) → Decoded σ → Except SettingFault (Decoded σ)
  | [], decoded => .ok decoded
  | (key, setting) :: rest, decoded =>
    match (fields.find? fun field => field.1 == key).map Prod.snd with
    | none =>
      decodeEntries fields above rest { decoded with unknown := decoded.unknown ++ [above ++ key] }
    | some read =>
      match read setting decoded.value with
      | .error fault => .error (fault.behind (.key key))
      | .ok value => decodeEntries fields above rest { decoded with value := value }

/-- Decodes list items as fields in order; items behind the last field are not looked at. -/
def decodeItems {σ : Type} (place : Nat) :
    Fields σ → List Setting → σ → Except SettingFault σ
  | [], _, value => .ok value
  | _ :: _, [], value => .ok value
  | field :: fields, setting :: rest, value =>
    match field.2 setting value with
    | .error fault => .error (fault.behind (.place place))
    | .ok value => decodeItems (place + 1) fields rest value

/-- Decodes a section, called `expected` in messages. -/
def decodeSection {σ : Type} (fields : Fields σ) (initial : σ) (expected above : String) :
    Setting → Except SettingFault (Decoded σ)
  | .table _ entries => decodeEntries fields above entries ⟨initial, []⟩
  | .list _ items => (decodeItems 0 fields items initial).map (⟨·, []⟩)
  | other => other.refuse expected

/-- The fields of the import section. -/
def ImportSection.fields : Fields ImportSection :=
  [("base-dir", fun setting _ => setting.asText?.map fun text => ⟨text.map Path.mk⟩)]

/-- The fields of a language's section. -/
def LanguageSection.fields : Fields LanguageSection :=
  [("name", fun setting held => setting.asText?.map fun name => { held with name := name }),
   ("xunit-report-paths", fun setting held =>
      setting.asTexts.map fun paths => { held with reports := { held.reports with xunit := paths } }),
   ("nunit-report-paths", fun setting held =>
      setting.asTexts.map fun paths => { held with reports := { held.reports with nunit := paths } }),
   ("vstest-report-paths", fun setting held =>
      setting.asTexts.map fun paths => { held with reports := { held.reports with vstest := paths } })]

/-- Decodes the sections of languages in order. -/
def decodeLanguages : List (String × Setting) → Except SettingFault (Decoded (List (String × LanguageSection)))
  | [] => .ok ⟨[], []⟩
  | (key, setting) :: rest =>
    match decodeSection LanguageSection.fields {} "struct LanguageDeserialize"
        ("language." ++ key ++ ".") setting with
    | .error fault => .error (fault.behind (.key key))
    | .ok decoded =>
      (decodeLanguages rest).map fun others =>
        ⟨(key, decoded.value) :: others.value, decoded.unknown ++ others.unknown⟩

/-- Decodes one entry at the top. -/
def decodeTop (key : String) (setting : Setting) (decoded : Decoded Sections) :
    Except SettingFault (Decoded Sections) :=
  if key = "import" then
    (decodeSection ImportSection.fields {} "struct ImportSectionDeserialize" "import." setting).map
      fun read => ⟨{ decoded.value with importing := read.value }, decoded.unknown ++ read.unknown⟩
  else if key = "language" then
    match setting with
    | .table _ entries =>
      (decodeLanguages entries).map fun read =>
        ⟨{ decoded.value with languages := read.value }, decoded.unknown ++ read.unknown⟩
    | other => other.refuse "a map"
  else .ok { decoded with unknown := decoded.unknown ++ [key] }

/-- Decodes entries at the top in order. -/
def decodeTops : List (String × Setting) → Decoded Sections → Except SettingFault (Decoded Sections)
  | [], decoded => .ok decoded
  | (key, setting) :: rest, decoded =>
    match decodeTop key setting decoded with
    | .error fault => .error (fault.behind (.key key))
    | .ok after => decodeTops rest after

/-- Decodes settings. -/
def decode (entries : List (String × Setting)) : Except SettingFault (Decoded Sections) :=
  decodeTops entries ⟨{}, []⟩

end TestMeasures
