import TerraformTrace.Engine.Query

/-!
# TerraformTrace.Engine.Request

An engine as a state machine: what can be asked of it, one request after the other, and
what it answers. Between requests time passes, entries are swept and files change.
-/

namespace TerraformTrace

/-- What can be asked of an engine. -/
inductive Request
  /-- The value of a reference. -/
  | value (mode : SearchMode) (wanted : Wanted) (start : Path)
  /-- A property of a value. -/
  | property (wanted : Wanted) (property : Text) (start : Path)
  /-- The values from several directories. -/
  | contexts (wanted : Wanted) (directories : List Path)
  /-- The directory of a module. -/
  | modulePath (source : Text) (start : Path)
  /-- A file was changed. -/
  | changed (file : Path)
  | clear
  | start
  | dispose
  /-- Time passes. -/
  | wait (time : Binary64)
  | sweep
  /-- A period of the sweeper is over. -/
  | tick
deriving DecidableEq, Repr

/-- What a request is answered with. -/
inductive Reply
  | value (value : Option Text)
  | values (found : Except UnusablePath (List ContextValue))
  | place (found : Except Abort (Option Path))
  /-- So many results were dropped. -/
  | removed (count : Except UnusablePath Nat)
  | done
deriving Repr

variable (ws : Workspace)

/-- The answer to a request, with the session after it. -/
def respond : Request → Query Reply
  | .value mode wanted place => .value <$> resolveIn ws mode wanted place
  | .property wanted property place => .value <$> resolveProperty ws wanted property place
  | .contexts wanted directories => .values <$> resolveInContexts ws wanted directories
  | .modulePath source place => .place <$> resolveModulePath ws source place
  | .changed file => .removed <$> notify ws file
  | .clear => (fun _ => .done) <$> clear
  | .start => (fun _ => .done) <$> start
  | .dispose => (fun _ => .done) <$> dispose
  | .wait time => fun s => (.done, { s with cache := s.cache.advance time })
  | .sweep => fun s => (.removed (.ok s.cache.sweep.1), { s with cache := s.cache.sweep.2 })
  | .tick => fun s => (.done, { s with cache := s.cache.tick })

/-- The session after a request. -/
def perform (request : Request) (s : Session) : Session := (respond ws request s).2

/-- The session after some requests, one after the other. -/
def performAll (requests : List Request) (s : Session) : Session :=
  requests.foldl (fun s request => perform ws request s) s

/-- The answers to some requests, one after the other. -/
def replies : List Request → Session → List Reply
  | [], _ => []
  | request :: requests, s =>
    (respond ws request s).1 :: replies requests (perform ws request s)

/-- The answer to a request, with values from several directories gathered in some way. -/
def respondWith (gather : Gather) : Request → Query Reply
  | .contexts wanted directories => .values <$> gatherInContexts ws gather wanted directories
  | request => respond ws request

/-- The answers to some requests, with values from several directories gathered in some
way. -/
def repliesWith (gather : Gather) : List Request → Session → List Reply
  | [], _ => []
  | request :: requests, s =>
    let (reply, s) := respondWith ws gather request s
    reply :: repliesWith gather requests s

end TerraformTrace
