import TerraformTrace.Engine.Query

/-!
# TerraformTrace.Registry

The open workspaces, at most one engine for each root. Roots may be nested: a path
belongs to the deepest root that contains it. Every engine has a number that no other
engine of the registry ever had.

A registry is told of roots and files by paths. A relative path is read in the directory
the program runs in, and a path that cannot be used is an error that changes nothing.
Below the operations on paths are those on places (`locate`).
-/

namespace TerraformTrace

/-- The engine of an open workspace. -/
structure Engine where
  root : Path
  number : Nat
  settings : Settings
  session : Session
deriving Repr

/-- The workspace of an engine over a file tree. -/
def Engine.workspace (engine : Engine) (tree : FileTree) (codecs : Codecs := .standard) :
    Workspace :=
  { root := engine.root, settings := engine.settings
    disk := { tree, encoding := engine.settings.encoding, codecs } }

/-- The open workspaces, in the order in which they were opened. -/
structure Registry where
  /-- The directory the program runs in, absolute. -/
  directory : Path
  settings : Settings
  engines : List Engine := []
  /-- The number of the next engine. -/
  nextNumber : Nat := 0
deriving Repr

/-- Why a workspace is not opened. -/
inductive OpenError
  | unusablePath (error : UnusablePath)
  /-- The settings leave no room in the cache. -/
  | cache (error : CacheError)
deriving DecidableEq, Repr

namespace Registry

variable (registry : Registry)

/-- The place that a path names. -/
def locate (path : Path) : Except UnusablePath Path :=
  path.usable.map fun path => (registry.directory.join path).normalize

/-! ### Places -/

/-- The engine whose root is a place. -/
def engineAt? (place : Path) : Option Engine := registry.engines.find? (·.root = place)

/-- The engine whose root is a place, started now if the root is not open yet. -/
def openAt (place : Path) : Except CacheError (Engine × Registry) :=
  match registry.engineAt? place with
  | some engine => .ok (engine, registry)
  | none => do
    let session ← Session.create registry.settings
    let engine : Engine :=
      { root := place, number := registry.nextNumber, settings := registry.settings
        session := (start session).2 }
    return (engine,
      { registry with
        engines := registry.engines ++ [engine], nextNumber := registry.nextNumber + 1 })

/-- Closes the root at a place, and tells whether it was open. -/
def closeAt (place : Path) : Bool × Registry :=
  ((registry.engineAt? place).isSome,
    { registry with engines := registry.engines.filter (·.root ≠ place) })

/-- Of two engines, the one with the deeper root; the first if they are equally deep. -/
def deeper (best : Option Engine) (engine : Engine) : Option Engine :=
  match best with
  | none => some engine
  | some found =>
    if found.root.parts.length < engine.root.parts.length then some engine else some found

/-- The engine that a place belongs to. -/
def ownerOf? (place : Path) : Option Engine :=
  (registry.engines.filter (·.root.isWithin place)).foldl deeper none

/-- Gives the engine of a root a new session. -/
def update (root : Path) (session : Session) : Registry :=
  { registry with
    engines := registry.engines.map fun engine =>
      if engine.root = root then { engine with session } else engine }

/-! ### Paths -/

/-- The engine of a root. -/
def get? (root : Path) : Except UnusablePath (Option Engine) :=
  (registry.locate root).map registry.engineAt?

/-- Whether a root is open. -/
def contains (root : Path) : Except UnusablePath Bool := (registry.get? root).map (·.isSome)

/-- The engine of a root, started now if the root is not open yet. -/
def openRoot (root : Path) : Except OpenError (Engine × Registry) := do
  let place ← (registry.locate root).mapError .unusablePath
  (registry.openAt place).mapError .cache

/-- Closes a root, and tells whether it was open. -/
def close (root : Path) : Except UnusablePath (Bool × Registry) :=
  (registry.locate root).map registry.closeAt

/-- The engine that a path belongs to. -/
def find? (path : Path) : Except UnusablePath (Option Engine) :=
  (registry.locate path).map registry.ownerOf?

/-- Makes a request of the engine that a path belongs to. -/
def ask {α : Type} (registry : Registry) (path : Path) (query : Engine → Query α) :
    Except UnusablePath (Option α × Registry) :=
  (registry.find? path).map fun owner =>
    match owner with
    | none => (none, registry)
    | some engine =>
      let (answer, session) := query engine engine.session
      (some answer, registry.update engine.root session)

/-- Tells the engine that owns a file that it changed; counts the dropped results. The
engine is found by the place of the file, and reads the path in its own root. -/
def fileChanged (tree : FileTree) (file : Path) : Except UnusablePath (Nat × Registry) :=
  (registry.ask file fun engine => TerraformTrace.fileChanged (engine.workspace tree) file).map
    fun (removed, registry) => (removed.getD 0, registry)

/-- Makes every engine forget everything. -/
def refresh : Registry :=
  { registry with
    engines := registry.engines.map fun engine =>
      { engine with session := (clear engine.session).2 } }

/-- Closes every root. -/
def closeAll : Registry := { registry with engines := [] }

/-! ### Commands -/

/-- What a registry can be told to do. -/
inductive Command
  | openRoot (root : Path)
  | close (root : Path)
  /-- A file of this tree has changed. -/
  | notify (tree : FileTree) (file : Path)
  | refresh
  | closeAll
  /-- Any request, of the engine that a path belongs to. -/
  | request (path : Path) (query : Engine → Query Unit)

/-- The registry after a command. A command that fails leaves it as it is. -/
def step (registry : Registry) : Command → Registry
  | .openRoot root => ((registry.openRoot root).toOption.map (·.2)).getD registry
  | .close root => ((registry.close root).toOption.map (·.2)).getD registry
  | .notify tree file => ((registry.fileChanged tree file).toOption.map (·.2)).getD registry
  | .refresh => registry.refresh
  | .closeAll => registry.closeAll
  | .request path query => ((registry.ask path query).toOption.map (·.2)).getD registry

/-- A registry in a directory and with some settings after commands in order. -/
def run (dir : Path) (settings : Settings) (commands : List Command) : Registry :=
  commands.foldl step { directory := dir, settings }

end Registry

end TerraformTrace
