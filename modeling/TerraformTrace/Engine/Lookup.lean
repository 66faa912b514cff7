import TerraformTrace.Engine.Session

/-!
# TerraformTrace.Engine.Lookup

Look-ups in one directory: what its files assign to a name, which modules they call,
and which directory a module's source names. Every look-up is remembered. Files are
taken in the order of their names, and a file or directory that cannot be accessed
counts as absent.
-/

namespace TerraformTrace

open Hcl

variable (ws : Workspace)

/-! ### Files -/

/-- Whether a path is a directory. -/
def checkDirectory (path : Path) : Run Bool := do
  match ws.disk.isDirectory path with
  | .ok answer => return answer
  | .error error =>
    note (.cannotStat path error)
    return false

/-- The files with one of the suffixes, in order. -/
def filesIn (dir : Path) (suffixes : List Text) : Run (List Path) := do
  note (.listed dir)
  match ws.disk.list dir with
  | .ok names =>
    return (names.filter fun name => suffixes.any (Text.endsWith · name)).map dir.entry
  | .error (.reported error) =>
    note (.cannotList dir error)
    return []
  | .error failure => throw (.access failure)

/-- The text of a file, if it can be read. -/
def readFile (path : Path) : Run (Option Text) := do
  note (.read path)
  match ws.disk.readText path with
  | .ok text => return some text
  | .error (.reported error) =>
    note (.cannotRead path error)
    return none
  | .error failure => throw (.access failure)

/-! ### Values -/

/-- A text that is not empty. The empty text stands for "nothing there". -/
def present? (text : Text) : Option Text := if text.isEmpty then none else some text

/-- The first value that one of the files has. -/
def firstValue (extract : Path → Text → Run (Option Text)) : List Path → Run (Option Text)
  | [] => return none
  | path :: paths => do
    match ← readFile ws path with
    | none => firstValue extract paths
    | some text =>
      match ← extract path text with
      | none => firstValue extract paths
      | some value => return some value

/-- A look-up for a name in a directory, remembered whether it finds something or not. -/
def rememberedLookup (kind : ResultKind) (name : Text) (dir : Path)
    (compute : Run (Option Text)) : Run (Option Text) := do
  let key := cacheKey kind.word [name, dir.toText]
  match ← lookUp key with
  | some known => return present? known.asText
  | none =>
    let value ← compute
    remember key (.text (value.getD []))
    return value.bind present?

/-- The value a file of variables assigns to a name. A malformed JSON file assigns
nothing. -/
def overrideIn (name : Text) (path : Path) (text : Text) : Run (Option Text) := do
  if Text.endsWith ".json".toList path.name then
    match Literal.jsonVariable? text name with
    | .ok value => return value
    | .error (.tooManyDigits digits) => throw (.tooManyDigits digits)
    | .error error =>
      note (.malformed path (error.report?.getD { message := [] }))
      return none
  else return assignedValue? text name

/-- The value the files of variables of a directory assign to a name. -/
def lookupOverride (name : Text) (dir : Path) : Run (Option Text) :=
  rememberedLookup .overrides name dir do
    let files ← filesIn ws dir ws.settings.overrideSuffixes
    firstValue ws (overrideIn name) files

/-- What the configuration files of a directory declare. -/
def lookupDeclared (kind : ResultKind) (name : Text) (dir : Path)
    (extract : Text → Option Text) : Run (Option Text) :=
  rememberedLookup kind name dir do
    let files ← filesIn ws dir ws.settings.configurationSuffixes
    firstValue ws (fun _ text => return extract text) files

/-- The value of a local. -/
def lookupLocal (name : Text) (dir : Path) : Run (Option Text) :=
  lookupDeclared ws .locals name dir (localValue? · name)

/-- The value of an output. -/
def lookupOutput (name : Text) (dir : Path) : Run (Option Text) :=
  lookupDeclared ws .outputs name dir (outputValue? · name)

/-- The default of a variable. -/
def lookupDefault (name : Text) (dir : Path) : Run (Option Text) :=
  lookupDeclared ws .variables name dir (variableDefault? · name)

/-- The argument of a data source. -/
def lookupData (ref : Reference) (dir : Path) : Run (Option Text) :=
  match ref.dataAddress? with
  | none => return none
  | some (type, name, field) =>
    lookupDeclared ws .data ref.base.text dir (dataArgument? · type name field)

/-! ### Modules -/

/-- The module calls of some files. -/
def callsIn (dir : Path) : List Path → Run (List ModuleCall)
  | [] => return []
  | path :: paths => do
    let calls := ((← readFile ws path).map (moduleCalls · dir)).getD []
    let more ← callsIn dir paths
    return calls ++ more

/-- The module calls of a directory. -/
def moduleCallsOf (dir : Path) : Run (List ModuleCall) := do
  let key := cacheKey ResultKind.modules.word [dir.toText]
  match ← lookUp key with
  | some known =>
    match known.asCalls? with
    | some calls => return calls
    | none => throw .badModuleCalls
  | none =>
    let files ← filesIn ws dir ws.settings.configurationSuffixes
    let calls ← callsIn ws dir files
    remember key (.calls calls)
    return calls

/-- Whether a module source names something outside the workspace's files. -/
def isRemote (settings : Settings) (source : Text) : Bool :=
  source.isEmpty || settings.remoteSourceMarkers.any (Text.occursIn · source)

/-- The path a local module source stands for. A leading slash stands for the root of
the workspace; every other source starts at the calling directory. -/
def sourcePath (source : Text) (dir : Path) : Path :=
  match source with
  | '/' :: rest => ws.root.join (.ofText (rest.dropWhile (· = '/')))
  | _ => dir.join (.ofText source)

/-- The directory a module source names, if it is a directory of the workspace. Found
directories are kept in the table of the session. -/
def modulePath (source : Text) (dir : Path) : Run (Option Path) := do
  let source := unquote source
  let dir := ws.normalize (← usablePath dir)
  let key := (source, dir.toText)
  match (← get).modulePaths.lookup key with
  | some place => return some place
  | none =>
    if isRemote ws.settings source then return none
    let place := (← usablePath (sourcePath ws source dir)).normalize
    if !ws.contains place then return none
    if !(← checkDirectory ws place) then return none
    modify fun session => { session with modulePaths := (key, place) :: session.modulePaths }
    return some place

/-- The calls, in the directory above, of the module that a directory is. -/
def callsInto (dir : Path) : Run (List ModuleCall) := do
  let parent := dir.parent
  if dir = ws.root || !ws.contains parent then return []
  let calls ← moduleCallsOf ws parent
  calls.filterM fun call =>
    return (← modulePath ws call.source parent) = some dir

end TerraformTrace
