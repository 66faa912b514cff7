import TerraformTrace.CommandLine.Arguments
import TerraformTrace.Registry
import TerraformTrace.Scan
import TerraformTrace.Settings.Load

/-!
# TerraformTrace.CommandLine.Run

What a command line does: it loads the settings, opens the workspace, runs one command
and prints its answer. Everything it reads is in the *shell*, so a run is a function of
the shell and the arguments. What is not the program's own is in the shell too: what reads
YAML, the codecs, and how the values from several directories are gathered.
-/

namespace TerraformTrace.CommandLine

/-- What a command runs in. -/
structure Shell where
  tree : FileTree
  /-- The current directory, absolute. -/
  directory : Path
  yaml : Yaml.Reader := Yaml.read?
  codecs : Codecs := .standard
  gather : Gather := resolveEach

/-- How a command ends. -/
inductive Status
  | found
  | notFound
  /-- There are no settings to run with. -/
  | badSettings
  /-- The file to scan cannot be read. -/
  | badFile
deriving DecidableEq, Repr

/-- The exit code of a status. -/
def Status.code : Status → Nat
  | .found => 0
  | .notFound => 1
  | .badSettings => 2
  | .badFile => 3

/-- What a command has no status for. -/
inductive Breakdown
  /-- The settings file cannot be looked for, or is not text. -/
  | settings (error : SettingsError)
  | path (error : UnusablePath)
  /-- The settings leave no room in the cache. -/
  | cache (error : CacheError)
  /-- The file to scan cannot be accessed in the way the settings ask for. -/
  | access (failure : AccessFailure)
  | scan (error : ScanError)
  | display (error : LiteralError)
deriving DecidableEq, Repr

/-- What a command prints. -/
structure Printed where
  status : Status
  output : List Text := []
  errors : List Text := []
deriving DecidableEq, Repr

/-- How a command line ends. -/
inductive Ending
  | usage (reason : UsageEnd)
  | printed (printed : Printed)
  | broken (reason : Breakdown)
deriving DecidableEq, Repr

/-! ### Printed forms -/

/-- A JSON object with some fields. -/
def fields (entries : List (String × Json)) : Json :=
  .object (entries.map fun entry => (Runes.ofText entry.1.toList, entry.2))

/-- Texts as a JSON array. -/
def stringArray (texts : List Text) : Json := .array (texts.map .ofText)

/-- A value, with what it was asked for, as JSON. -/
def resolvedJson (ref : Text) (dir : Path) (value : Option Text) : Json :=
  fields [("reference", .ofText ref), ("directory", .ofText dir.toText),
    ("value", (value.map .ofText).getD .null)]

/-- A value from one directory as JSON. -/
def contextValueJson (item : ContextValue) : Json :=
  fields [("value", .ofText item.value), ("directory", .ofText item.directory.toText),
    ("context", .ofText item.context)]

/-- A shared value as JSON. -/
def sharedValueJson (item : SharedValue) : Json :=
  fields [("value", .ofText item.value), ("contexts", stringArray item.contexts),
    ("directories", stringArray (item.directories.map (·.toText)))]

/-- An annotated reference as JSON. -/
def annotatedJson (entry : AnnotatedReference) : Json :=
  fields [("reference", .ofText entry.reference), ("line", .int entry.line),
    ("column", .int entry.column), ("values", .array (entry.values.map sharedValueJson))]

/-- A shared value on one line, with its contexts. -/
def sharedValueText (item : SharedValue) : Text :=
  item.value ++ " (".toList ++ Text.join ", ".toList item.contexts ++ [')']

/-- An annotated reference on one line. Lines and columns are printed from one. -/
def annotatedText (entry : AnnotatedReference) : Text :=
  let place := Text.ofNat (entry.line + 1) ++ ':' :: Text.ofNat (entry.column + 1)
  let values :=
    if entry.values.isEmpty then "(unresolved)".toList
    else Text.join "; ".toList (entry.values.map sharedValueText)
  place ++ ' ' :: entry.reference ++ " -> ".toList ++ values

/-! ### Commands -/

variable (shell : Shell) (ws : Workspace) (args : Arguments)

/-- Prints the value of a reference. -/
def runResolve : Query (Except Breakdown Printed) := do
  let dir := shell.directory.join args.start
  let ref := args.subject
  let mode : SearchMode := if args.plain then .plain else .enhanced
  let value ← resolveIn ws mode (.text (some ref)) dir
  let status := if value.isSome then Status.found else .notFound
  if args.json then
    return .ok { status, output := [(resolvedJson ref dir value).writeIndented] }
  match value with
  | none => return .ok { status, errors := [ref ++ ": not found".toList] }
  | some value =>
    match Literal.display value with
    | .ok shown => return .ok { status, output := [shown] }
    | .error error => return .error (.display error)

/-- Prints the values of a reference from each candidate directory. -/
def runContexts : Query (Except Breakdown Printed) := do
  let dir := shell.directory.join args.start
  let ref := args.subject
  match candidateDirectories ws dir with
  | .error error => return .error (.path error)
  | .ok candidates =>
    let values ← shell.gather ws (.text (some ref)) candidates
    let status := if values.isEmpty then Status.notFound else .found
    if args.json then
      return .ok { status, output := [(Json.array (values.map contextValueJson)).writeIndented] }
    let output := values.map fun item => item.context ++ ": ".toList ++ item.value
    let errors := if values.isEmpty then [ref ++ ": not found in any context".toList] else []
    return .ok { status, output, errors }

/-- What is printed when the file to scan cannot be read. -/
def badFile (error : AccessError) : Printed :=
  let lines := error.logLine?.toList ++ ["File error: ".toList ++ error.report.toText]
  { status := .badFile, errors := lines.map fun line => (LogLine.error line).toText }

/-- Prints the annotations of a file. -/
def runScan : Query (Except Breakdown Printed) := do
  match (Path.ofText args.subject).usable with
  | .error error => return .error (.path error)
  | .ok file =>
    let document := (shell.directory.join file).normalize
    match ws.disk.readText document with
    | .error (.reported error) => return .ok (badFile error)
    | .error failure => return .error (.access failure)
    | .ok text =>
      match ← scan ws text document 0 none shell.gather with
      | .error error => return .error (.scan error)
      | .ok entries =>
        if args.json then
          return .ok { status := .found
                       output := [(Json.array (entries.map annotatedJson)).writeIndented] }
        return .ok { status := .found, output := entries.map annotatedText }

/-- Runs the command of some arguments. -/
def runCommand : Query (Except Breakdown Printed) :=
  match args.command with
  | .resolve => runResolve shell ws args
  | .contexts => runContexts shell ws args
  | .scan => runScan shell ws args

/-! ### Whole runs -/

/-- The lines logged during a session, in order. -/
def logOf (args : Arguments) (session : Session) : List Text :=
  let lines := if args.debug || args.verbose then Event.details else Event.logLines
  session.events.reverse.flatMap fun event => (lines event).map LogLine.toText

/-- How a command line ends whose settings cannot be loaded. -/
def settingsEnding (error : SettingsError) : Ending :=
  match error.report? with
  | none => .broken (.settings error)
  | some report =>
    let missing :=
      match error with
      | .notFound _ => [report.message]
      | _ => []
    let lines := missing ++ ["Settings error: ".toList ++ report.toText,
      "Suggestion: ".toList ++ report.recoveryHint]
    .printed { status := .badSettings
               errors := lines.map fun line => (LogLine.error line).toText }

/-- Runs the command of some arguments with loaded settings. -/
def runWith (shell : Shell) (root : Path) (settings : Settings) (args : Arguments) : Ending :=
  match Registry.openAt { directory := shell.directory, settings } root with
  | .error error => .broken (.cache error)
  | .ok (engine, _) =>
    let (ending, session) :=
      runCommand shell (engine.workspace shell.tree shell.codecs) args engine.session
    match ending with
    | .error reason => .broken reason
    | .ok printed => .printed { printed with errors := logOf args session ++ printed.errors }

/-- The root of the workspace that arguments name. -/
def Arguments.root (args : Arguments) (dir : Path) : Path := (dir.join args.workspace).normalize

/-- The places that a run reads: the workspace, the settings file and the file to scan. -/
def Arguments.places (args : Arguments) (dir : Path) : List Path :=
  args.root dir :: args.config.toList.map dir.join ++
    (if args.command = .scan then [dir.join (.ofText args.subject)] else [])

/-- Runs a command line. -/
def run (shell : Shell) (words : List Text) : Ending :=
  match parse words with
  | .error reason => .usage reason
  | .ok args =>
    match args.workspace.usable with
    | .error error => .broken (.path error)
    | .ok _ =>
      let root := args.root shell.directory
      let settings :=
        match args.config with
        | some path => Settings.load shell.tree shell.directory path shell.yaml
        | none => Settings.discover shell.tree root shell.yaml
      match settings with
      | .error error => settingsEnding error
      | .ok settings => runWith shell root settings args

/-- The wording of a breakdown. -/
def Breakdown.message : Breakdown → Text
  | .settings (.inaccessible file error) => systemMessage file error
  | .settings _ => "The settings file is not text".toList
  | .path error => error.message
  | .cache error => error.message
  | .access failure => failure.message
  | .scan error => error.message
  | .display (.tooManyDigits digits) => Json.tooManyDigitsMessage digits
  | .display error => ((error.report?).map (·.toText)).getD []

/-- Lines as a text, every line ended. -/
def printedText (lines : List Text) : Text := lines.flatMap (· ++ ['\n'])

end TerraformTrace.CommandLine
