import TerraformTrace.Cache.Stats
import TerraformTrace.Engine.Resolve

/-!
# TerraformTrace.Engine.Query

The requests that can be made of an engine. Every request for a value is answered: what
is not found, and what a request was given up over, is answered by nothing. A path that
cannot be used is an error where the request is not for one value.

**Several directories are asked one after the other** (`resolveEach`), each with what the
ones before it left in the cache. The program starts the searches together and lets each
go on when its file access is done, so there the order in which they meet the cache is up
to the file system. The way they are gathered is a parameter therefore (`Gather`) where it
is known only that a single place is asked in turn (`Gather.AsksInTurn`), or not even that.
-/

namespace TerraformTrace

open Hcl

/-- A request: an answer and the session after it. -/
abbrev Query := StateM Session

/-- The wording of why a request is given up. -/
def Abort.message : Abort → Text
  | .access failure => failure.message
  | .tooManyDigits digits => Json.tooManyDigitsMessage digits
  | .badModuleCalls => "Module calls cannot be read".toList

/-- Answers a run; one that is given up finds nothing. `onFailure` is logged then. -/
def answered {α : Type} (onFailure : Text) (run : Run (Option α)) : Query (Option α) :=
  fun session =>
    match run session with
    | .ok value session => (value, session)
    | .error abort session =>
      (none, { session with events := .gaveUp onFailure abort.message :: session.events })

/-! ### References -/

/-- What a request asks for: the text of a reference, or a reference. -/
inductive Wanted
  | text (text : Option Text)
  | reference (ref : Reference)
deriving DecidableEq, Repr

/-- The reference that is asked for, if it is one. -/
def Wanted.reference? : Wanted → Option Reference
  | .text written => (Reference.parse written).toOption
  | .reference known => some known

/-- What is asked for, as it is shown. -/
def Wanted.shown : Wanted → Text
  | .text written => written.getD "None".toList
  | .reference known => known.text

variable (ws : Workspace)

/-- The value of a reference from a directory. -/
def resolveIn (mode : SearchMode) (wanted : Wanted) (start : Path) : Query (Option Text) :=
  answered ("Unexpected failure resolving ".toList ++ wanted.shown) do
    match wanted.reference? with
    | none => return none
    | some ref =>
      let dir := ws.normalize (← usablePath start)
      if !ws.contains dir then return none
      if !(← checkDirectory ws dir) then return none
      return (← resolveFrom ws mode ref dir).value

/-- The value of a reference by directory search. -/
def resolve (wanted : Wanted) (start : Path) : Query (Option Text) :=
  resolveIn ws .plain wanted start

/-- The value of a reference, also following the arguments of module calls. -/
def resolveEnhanced (wanted : Wanted) (start : Path) : Query (Option Text) :=
  resolveIn ws .enhanced wanted start

/-- A property of the value of a reference. -/
def resolveProperty (wanted : Wanted) (property : Text) (start : Path) :
    Query (Option Text) := do
  match ← resolveEnhanced ws wanted start with
  | none => return none
  | some base =>
    answered ("Property projection failed for ".toList ++ property)
      (project (some base) [property])

/-- The directory of the workspace that a module source names. Here it is told when the
request is given up. -/
def resolveModulePath (source : Text) (start : Path) :
    Query (Except Abort (Option Path)) :=
  fun session =>
    match modulePath ws source start session with
    | .ok place session => (.ok place, session)
    | .error abort session => (.error abort, session)

/-! ### Several contexts -/

/-- A value with the directory it was found from and that directory's label. -/
structure ContextValue where
  value : Text
  directory : Path
  context : Text
deriving DecidableEq, Repr

/-- The names of directories that label themselves. -/
def environmentLabels : List Text := ["dev", "test", "prod", "staging"].map String.toList

/-- A short label of a place. -/
def placeLabel (place : Path) : Text :=
  if place = ws.root then "root".toList
  else
    match ws.root.relativeTo? place with
    | none => place.toText
    | some relative =>
      if environmentLabels.contains relative.name then relative.name else relative.toText

/-- A short label of a directory. -/
def contextLabel (dir : Path) : Except UnusablePath Text := (ws.locate dir).map (placeLabel ws)

/-- The directories a document's references are resolved from: its own, the root, and
those of the environments. -/
def candidateDirectories (dir : Path) : Except UnusablePath (List Path) := do
  let own ← dir.usable
  let environments ← ws.settings.environmentDirectories.mapM fun name => (Path.ofText name).usable
  return (ws.normalize own :: ws.root :: environments.map ws.normalize).eraseDups

/-- The values of a reference from each of some places, one after the other. A place
without a value is left out, and so is one with the empty value. -/
def resolveEach (wanted : Wanted) : List Path → Query (List ContextValue)
  | [] => return []
  | place :: places => do
    let value ← resolveEnhanced ws wanted place
    let more ← resolveEach wanted places
    match value.bind present? with
    | none => return more
    | some value =>
      return { value, directory := place, context := placeLabel ws place } :: more

/-- A way to get the values of a reference from each of some places. -/
abbrev Gather := Workspace → Wanted → List Path → Query (List ContextValue)

/-- Up to so many places are asked in turn. One place is, however places are gathered. -/
def Gather.AsksInTurn (gather : Gather) (count : Nat) : Prop :=
  ∀ ws wanted places, places.length ≤ count → gather ws wanted places = resolveEach ws wanted places

/-- The values of a reference from each of some directories, every directory once, gathered
in some way. -/
def gatherInContexts (gather : Gather) (wanted : Wanted) (directories : List Path) :
    Query (Except UnusablePath (List ContextValue)) :=
  match directories.mapM ws.locate with
  | .error error => return .error error
  | .ok places => .ok <$> gather ws wanted places.eraseDups

/-- The values of a reference from each of some directories, every directory once. -/
def resolveInContexts (wanted : Wanted) (directories : List Path) :
    Query (Except UnusablePath (List ContextValue)) :=
  gatherInContexts ws resolveEach wanted directories

/-! ### Upkeep -/

/-- Drops the entries with a fragment in their key, and counts them. -/
def invalidate (fragment : Text) : Query Nat := fun session =>
  let (removed, cache) := session.cache.invalidate fragment
  (removed, { session with cache })

/-- Drops every result derived from a changed file, and counts them: those of the file,
of its directory, and all whole resolutions, which may depend on files anywhere. -/
def fileChanged (file : Path) : Query Nat := do
  let path := ws.normalize file
  let ofFile ← invalidate path.toText
  let ofDirectory ← invalidate path.parent.toText
  let plain ← invalidate (kindFragment ResultKind.resolve.word)
  let enhanced ← invalidate (kindFragment ResultKind.enhanced.word)
  return ofFile + ofDirectory + plain + enhanced

/-- Answers the notice that a file has changed. -/
def notify (file : Path) : Query (Except UnusablePath Nat) :=
  match file.usable with
  | .error error => return .error error
  | .ok file => .ok <$> fileChanged ws file

/-- Forgets everything. -/
def clear : Query Unit :=
  modify fun session => { session with cache := session.cache.clear, modulePaths := [] }

/-- Begins the periodic sweep. -/
def start : Query Unit :=
  modify fun session => { session with cache := { session.cache with sweeping := true } }

/-- Ends the periodic sweep and forgets everything. -/
def dispose : Query Unit := do
  modify fun session => { session with cache := session.cache.stopSweeper }
  clear

/-- A fresh session. -/
def Session.create (settings : Settings) : Except CacheError Session := do
  let cache ← Cache.create settings.cacheTtl settings.cacheMaxEntries .zero
  return { cache }

/-- A fresh session, or one with a cache handed over. An empty cache is not taken over. -/
def Session.createWith (settings : Settings) (cache : Cache Binary64 Remembered) :
    Except CacheError Session :=
  if cache.size = 0 then create settings else .ok { cache }

/-- Number of times each file was read, by the file's path. -/
def Session.reads (session : Session) : List (Path × Nat) :=
  let paths := session.events.filterMap fun
    | .read path => some path
    | _ => none
  paths.eraseDups.map fun path => (path, paths.count path)

end TerraformTrace
