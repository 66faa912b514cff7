import TerraformTrace.Files.Access
import TerraformTrace.Json.Reader
import TerraformTrace.Settings.Check
import TerraformTrace.Yaml.Document

/-!
# TerraformTrace.Settings.Load

Settings from a file, in JSON or YAML by its suffix. A workspace may hold a settings
file of a known name; without one the defaults apply. What reads YAML is handed over
(`Yaml.Reader`), and the program's own reader is the default.
-/

namespace TerraformTrace

/-- Why there are no settings. -/
inductive SettingsError
  /-- There is no file. -/
  | notFound (path : Path)
  /-- It cannot be told whether there is a file. -/
  | inaccessible (path : Path) (error : WalkError)
  /-- The suffix is that of no format. -/
  | unsupported (path : Path)
  | unreadable (path : Path) (error : WalkError)
  /-- The bytes are not UTF-8. -/
  | undecodable (path : Path)
  /-- The text is neither JSON nor YAML, as it should be; the reason is told for JSON. -/
  | unparsable (path : Path) (reason : Option Text)
  /-- The document is not a mapping. -/
  | notMapping (path : Path)
  /-- A field is not in order. -/
  | invalid (path : Path) (error : FieldError)
deriving DecidableEq, Repr

namespace SettingsError

/-- The report of an error. A file of which it cannot be told whether it is there, and
bytes that are not text, are not reported as errors of the settings. -/
def report? : SettingsError → Option (Report Text)
  | .notFound path => plain path ("Settings file not found: ".toList ++ path.toText)
  | .unsupported path =>
    plain path ("Unsupported extension '".toList ++ path.suffix ++
      "'. Supported: .json, .yaml, .yml".toList)
  | .unreadable path error =>
    plain path ("Cannot read ".toList ++ path.name ++ ": ".toList ++ systemMessage path error)
  | .inaccessible .. => none
  | .undecodable _ => none
  | .unparsable path reason =>
    plain path ("Cannot parse ".toList ++ path.name ++
      (reason.map (": ".toList ++ ·)).getD [])
  | .notMapping path => plain path "Top-level object must be a mapping".toList
  | .invalid path error =>
    some (.configuration ("Invalid resolver settings: ".toList ++ error.fault.message)
      (some path.toText) (some error.field))
where
  /-- A report without a field. -/
  plain (path : Path) (message : Text) : Option (Report Text) :=
    some (.configuration message (some path.toText) none)

end SettingsError

namespace Settings

/-! ### Documents -/

/-- The formats of settings files. -/
inductive Format
  | json
  | yaml
deriving DecidableEq, Repr

/-- The format of a file by its suffix, in upper or lower case. -/
def Format.ofPath? (path : Path) : Option Format :=
  let suffix := path.suffix.map Char.toLower
  if suffix = ".json".toList then some .json
  else if suffix = ".yaml".toList || suffix = ".yml".toList then some .yaml
  else none

/-- A key of a YAML mapping. A truth value is shown as one or zero. -/
def keyOfYaml : Yaml.Key → DocumentKey
  | .atom (.text value) => .name value
  | .atom (.truth value) => .other [if value then '1' else '0']
  | key => .other key.shown

/-- The value of a scalar. Of a timestamp matters only that it is none of the others. -/
def valueOfAtom : Yaml.Atom → Json
  | .null => .null
  | .truth value => .bool value
  | .integer value => .int value
  | .number value => .float value
  | .text value => .ofText value
  | .timestamp _ => .object []

mutual

/-- The value of a part of a YAML document. Of a mapping matters only that it is one. -/
def valueOfYaml : Yaml.Value → Json
  | .atom value => valueOfAtom value
  | .list items => .array (valuesOfYaml items)
  | .map _ => .object []

/-- The values of parts of a YAML document. -/
def valuesOfYaml : List Yaml.Value → List Json
  | [] => []
  | item :: items => valueOfYaml item :: valuesOfYaml items

end

/-- The settings document of a JSON value; none if it is not a mapping. Nothing at all
counts as the empty document. -/
def documentOfJson? : Json → Option SettingsDocument
  | .null => some []
  | .object fields =>
    some (fields.map fun field =>
      (((field.1.toText?).map DocumentKey.name).getD .unpaired, field.2))
  | _ => none

/-- The settings document of a YAML document; none if it is not a mapping. Nothing at
all counts as the empty document. -/
def documentOfYaml? : Yaml.Value → Option SettingsDocument
  | .atom .null => some []
  | .map entries =>
    some (entries.map fun entry => (keyOfYaml entry.1, valueOfYaml entry.2))
  | _ => none

/-- Reads the document of a settings file. -/
def readDocument (format : Format) (path : Path) (text : Text)
    (yaml : Yaml.Reader := Yaml.read?) : Except SettingsError SettingsDocument := do
  let document? ←
    match format with
    | .json =>
      match Json.read text with
      | .ok value => pure (documentOfJson? value)
      | .error fault => .error (.unparsable path (some (fault.message text)))
    | .yaml =>
      match yaml text with
      | some value => pure (documentOfYaml? value)
      | none => .error (.unparsable path none)
  match document? with
  | some document => return document
  | none => .error (.notMapping path)

/-! ### Files -/

/-- Loads settings from a file that is there. -/
def loadFile (tree : FileTree) (path place : Path) (yaml : Yaml.Reader := Yaml.read?) :
    Except SettingsError Settings :=
  match Format.ofPath? path with
  | none => .error (.unsupported path)
  | some format =>
    match tree.content place with
    | .error error => .error (.unreadable path error)
    | .ok bytes =>
      match Encoding.utf8.decode? bytes with
      | none => .error (.undecodable path)
      | some text => do
        let document ← readDocument format path (Text.unifyLineEnds text) yaml
        (ofDocument document).mapError (.invalid path)

/-- Loads settings from a file. `path` is the path as it was given, read in
`dir`. -/
def load (tree : FileTree) (dir path : Path) (yaml : Yaml.Reader := Yaml.read?) :
    Except SettingsError Settings :=
  let place := dir.join path
  match tree.probe place with
  | .error error => .error (.inaccessible path error)
  | .ok none => .error (.notFound path)
  | .ok (some _) => loadFile tree path place yaml

/-- The names of settings files, in the order in which they are looked for. -/
def fileNames : List String := [".tfresolver.yaml", ".tfresolver.yml", ".tfresolver.json"]

/-- The settings of the first of some places that is a file; without one the defaults. -/
def loadFirst (tree : FileTree) (yaml : Yaml.Reader) : List Path → Except SettingsError Settings
  | [] => .ok {}
  | path :: paths =>
    match tree.probe path with
    | .error error => .error (.inaccessible path error)
    | .ok (some (.file _)) => loadFile tree path path yaml
    | .ok _ => loadFirst tree yaml paths

/-- The settings of a workspace: from its settings file, or the defaults. -/
def discover (tree : FileTree) (root : Path) (yaml : Yaml.Reader := Yaml.read?) :
    Except SettingsError Settings :=
  loadFirst tree yaml (fileNames.map fun name => root.entry name.toList)

end Settings

end TerraformTrace
