import TerraformTrace.Cache.Basic
import TerraformTrace.Engine.Context
import TerraformTrace.Files.Access
import TerraformTrace.Json.Reader
import TerraformTrace.Json.Writer
import TerraformTrace.Literal
import TerraformTrace.Settings.Basic

/-!
# TerraformTrace.Engine.Session

What the resolution engine works with. A *workspace* is fixed during a request: the
root that bounds the search, the settings and the disk. A *session* is what requests
leave behind: the cache, the table of module directories and the record of events.

A run of the engine changes the session and may be given up. The changes made up to
that point stay.

**The clock stands still during a request.** The program reads the clock at every access
to the cache; here the cache has a time of its own, and the time passes only between
requests. What is said of a request is said of one during which no entry grows old.
-/

namespace TerraformTrace

open Hcl

/-- What a request works on. -/
structure Workspace where
  /-- Absolute and normalised. -/
  root : Path
  settings : Settings
  disk : Disk

namespace Workspace

/-- An absolute path without `..`; relative paths start at the root. -/
def normalize (ws : Workspace) (path : Path) : Path :=
  (ws.root.join path).normalize

/-- Whether a path lies in the workspace. -/
def contains (ws : Workspace) (path : Path) : Bool := ws.root.isWithin (ws.normalize path)

/-- The place that a path from outside names, if the path can be used. -/
def locate (ws : Workspace) (path : Path) : Except UnusablePath Path := path.usable.map ws.normalize

/-- Whether the place that a path from outside names lies in the workspace. -/
def covers (ws : Workspace) (path : Path) : Except UnusablePath Bool := path.usable.map ws.contains

end Workspace

/-! ### Remembered results -/

/-- A remembered result: the text of a value, empty for "nothing there", or the module
calls of a directory. -/
inductive Remembered
  | text (value : Text)
  | calls (calls : List ModuleCall)
deriving DecidableEq, Repr

/-- What a result was computed for. -/
inductive ResultKind
  /-- A whole resolution by directory search. -/
  | resolve
  /-- A whole resolution that also follows module call sites. -/
  | enhanced
  | overrides
  | locals
  | outputs
  | variables
  | data
  | modules
deriving DecidableEq, Repr

/-- The word for a kind of result in keys. -/
def ResultKind.word : ResultKind → Text
  | .resolve => "resolve".toList
  | .enhanced => "enhanced".toList
  | .overrides => "tfvars".toList
  | .locals => "locals".toList
  | .outputs => "outputs".toList
  | .variables => "variables".toList
  | .data => "data".toList
  | .modules => "modules".toList

/-- How resolution goes: by directory search only, or following module call sites. -/
inductive SearchMode
  | plain
  | enhanced
deriving DecidableEq, Repr

/-- The kind under which whole results are remembered. -/
def SearchMode.kind : SearchMode → ResultKind
  | .plain => .resolve
  | .enhanced => .enhanced

/-- The key of a result: its kind and what it was computed from, as a JSON array of
strings. -/
def cacheKey (kind : Text) (parts : List Text) : Text :=
  '[' :: Text.join ", ".toList ((kind :: parts).map Json.writeRawString) ++ [']']

/-- The fragment that all keys of a kind share. -/
def kindFragment (kind : Text) : Text := (cacheKey kind []).dropLast

/-! ### Module calls as JSON

A cache can be handed over with entries in text form; the list of a directory's module
calls is then a JSON array of objects. -/

/-- The text of a JSON string. -/
def Json.text? : Json → Option Text
  | .string runes => runes.toText?
  | _ => none

/-- The inputs of a module call from a JSON object. -/
def inputsOfJson? : Json → Option Inputs
  | .object fields => fields.mapM fun field => do
      let name ← field.1.toText?
      let value ← field.2.text?
      return (name, value)
  | _ => none

/-- A module call from a JSON object. The inputs may be absent. -/
def moduleCallOfJson? (json : Json) : Option ModuleCall := do
  let name ← (← json.get? "name".toList).text?
  let source ← (← json.get? "source".toList).text?
  let inputs ←
    match json.get? "inputs".toList with
    | some inputs => inputsOfJson? inputs
    | none => some []
  let dir ← (← json.get? "directory".toList).text?
  return { name, source, inputs, directory := .ofText dir }

/-- The module calls that a JSON array holds. -/
def moduleCallsOfText? (text : Text) : Option (List ModuleCall) :=
  match Json.read text with
  | .ok (.array items) => items.mapM moduleCallOfJson?
  | _ => none

/-- A module call as a JSON object. -/
def moduleCallJson (call : ModuleCall) : Json :=
  .object [(Runes.ofText "name".toList, .ofText call.name),
    (Runes.ofText "source".toList, .ofText call.source),
    (Runes.ofText "inputs".toList,
      .object (call.inputs.map fun input => (Runes.ofText input.1, .ofText input.2))),
    (Runes.ofText "directory".toList, .ofText call.directory.toText)]

namespace Remembered

/-- A result in text form. -/
def asText : Remembered → Text
  | .text value => value
  | .calls found => (Json.array (found.map moduleCallJson)).write

/-- A result as module calls. -/
def asCalls? : Remembered → Option (List ModuleCall)
  | .text value => moduleCallsOfText? value
  | .calls found => some found

end Remembered

/-! ### Events -/

/-- What happens during a request. -/
inductive Event
  | entered (ctx : Context)
  /-- A frame is on its own path already and is cut. -/
  | cycleCut (ctx : Context)
  /-- A frame lies deeper than the settings allow. -/
  | depthReached (limit : Nat) (ctx : Context)
  | stored (key : Text)
  /-- A frame is left with this value, which may be remembered or not. -/
  | returned (mode : SearchMode) (ctx : Context) (value : Option Text) (cacheable : Bool)
  /-- The argument of a call is taken for the input of a frame and comes to this. -/
  | threaded (ctx : Context) (call : ModuleCall) (value : Option Text) (cacheable : Bool)
  | listed (dir : Path)
  | read (path : Path)
  | cannotList (dir : Path) (error : AccessError)
  | cannotRead (path : Path) (error : AccessError)
  /-- It could not be told whether a place is a directory. -/
  | cannotStat (path : Path) (error : AccessError)
  /-- A file of variables in JSON is malformed. -/
  | malformed (path : Path) (report : Report Text)
  /-- A request was given up, for a reason. -/
  | gaveUp (request reason : Text)
deriving Repr

/-- A line of the log that is shown to the user. -/
inductive LogLine
  /-- A line for those who ask for details. -/
  | detail (message : Text)
  | warning (message : Text)
  | error (message : Text)
deriving DecidableEq, Repr

/-- The printed form of a line of the log. -/
def LogLine.toText : LogLine → Text
  | .detail message => "DEBUG: ".toList ++ message
  | .warning message => "WARNING: ".toList ++ message
  | .error message => "ERROR: ".toList ++ message

/-- The lines logged for a failed access: where it failed, and what was not done. -/
def accessLines (action : String) (path : Path) (error : AccessError) : List LogLine :=
  (error.logLine?.map LogLine.error).toList ++
    [.error ("Cannot ".toList ++ action.toList ++ ' ' :: path.toText ++ ": ".toList ++
      error.report.toText)]

/-- The lines of an event that are shown to the user. -/
def Event.logLines : Event → List LogLine
  | .depthReached limit ctx =>
    [.warning ("Maximum depth ".toList ++ Text.ofNat limit ++ " reached resolving ".toList ++
      ctx.reference.text ++ " in ".toList ++ ctx.directory.toText)]
  | .cannotList dir error => accessLines "list" dir error
  | .cannotRead path error => accessLines "read" path error
  | .cannotStat path error => accessLines "stat" path error
  | .malformed path report =>
    [.error ("Skipping malformed ".toList ++ path.toText ++ ": ".toList ++ report.toText)]
  | .gaveUp request _ => [.error request]
  | _ => []

/-- A frame as it is shown in details of the log. -/
def Context.shown (ctx : Context) : Text :=
  ctx.reference.text ++ " in ".toList ++ ctx.directory.toText

/-- The lines of an event for those who ask for details. -/
def Event.details : Event → List LogLine
  | .entered ctx => [.detail ("Resolving ".toList ++ ctx.shown)]
  | .cycleCut ctx => [.detail ("Cycle cut at ".toList ++ ctx.shown)]
  | .stored key => [.detail ("Stored ".toList ++ key)]
  | .listed dir => [.detail ("Listed ".toList ++ dir.toText)]
  | .read path => [.detail ("Read ".toList ++ path.toText)]
  | .gaveUp request reason => [.error request, .detail reason]
  | event => event.logLines

/-! ### Sessions -/

/-- What requests leave behind. -/
structure Session where
  cache : Cache Binary64 Remembered
  /-- Module directories by source and calling directory. -/
  modulePaths : List ((Text × Text) × Path) := []
  /-- Everything that happened, latest first. -/
  events : List Event := []
deriving Repr

/-- Why a request is given up. -/
inductive Abort
  /-- An access failed in a way that is not reported. -/
  | access (failure : AccessFailure)
  /-- An integer has this many digits. -/
  | tooManyDigits (digits : Nat)
  /-- Remembered module calls cannot be read. -/
  | badModuleCalls
deriving DecidableEq, Repr

/-- A part of a request: it changes the session and may be given up. -/
abbrev Run := EStateM Abort Session

/-- A path that can be used; a request is given up over any other. -/
def usablePath (path : Path) : Run Path :=
  match path.usable with
  | .ok path => return path
  | .error error => throw (.access (.unusablePath error))

/-- Records an event. -/
def note (event : Event) : Run Unit :=
  modify fun session => { session with events := event :: session.events }

/-- What is remembered under a key. -/
def lookUp (key : Text) : Run (Option Remembered) :=
  modifyGet fun session =>
    let (value, cache) := session.cache.get key
    (value, { session with cache })

/-- Remembers a result under a key. -/
def remember (key : Text) (value : Remembered) : Run Unit := do
  note (.stored key)
  modify fun session => { session with cache := session.cache.set key value }

end TerraformTrace
