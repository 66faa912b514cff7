import TerraformTrace.Engine.Query

/-!
# TerraformTrace.Proofs.Evaluation

Resolution without memory. The functions here read the disk anew every time. They keep
no session, so there is no cache, no table of module directories and no record of
events, and they do not look for cycles: only the number of levels bounds them. What
they come to is the meaning that the results of an engine are measured against.

Each function has the name of its counterpart in the engine or, where that one looks
something up, of what is looked up.
-/

namespace TerraformTrace

open Hcl

namespace Direct

variable (ws : Workspace)

/-! ### Files -/

/-- Whether a path leads to a directory, as far as can be told. -/
def isDirectory (path : Path) : Bool :=
  match ws.disk.isDirectory path with
  | .ok answer => answer
  | .error _ => false

/-- The files of a directory with one of the suffixes, in order. -/
def files (dir : Path) (suffixes : List Text) : Except Abort (List Path) :=
  match ws.disk.list dir with
  | .ok names =>
    .ok ((names.filter fun name => suffixes.any (Text.endsWith · name)).map dir.entry)
  | .error (.reported _) => .ok []
  | .error failure => .error (.access failure)

/-- The text of a file, if it can be read. -/
def text? (path : Path) : Except Abort (Option Text) :=
  match ws.disk.readText path with
  | .ok text => .ok (some text)
  | .error (.reported _) => .ok none
  | .error failure => .error (.access failure)

/-- A path that can be used. -/
def usable (path : Path) : Except Abort Path :=
  match path.usable with
  | .ok path => .ok path
  | .error error => .error (.access (.unusablePath error))

/-! ### Values -/

/-- The first value that one of the files has. -/
def firstValue (extract : Path → Text → Except Abort (Option Text)) :
    List Path → Except Abort (Option Text)
  | [] => return none
  | path :: paths => do
    match ← text? ws path with
    | none => firstValue extract paths
    | some text =>
      match ← extract path text with
      | none => firstValue extract paths
      | some value => return some value

/-- The value that the files of a directory with one of the suffixes give. -/
def valueIn (suffixes : List Text) (extract : Path → Text → Except Abort (Option Text))
    (dir : Path) : Except Abort (Option Text) := do
  let value ← firstValue ws extract (← files ws dir suffixes)
  return value.bind present?

/-- The value a file of variables assigns to a name. -/
def overrideIn (name : Text) (path : Path) (text : Text) : Except Abort (Option Text) :=
  if Text.endsWith ".json".toList path.name then
    match Literal.jsonVariable? text name with
    | .ok value => .ok value
    | .error (.tooManyDigits digits) => .error (.tooManyDigits digits)
    | .error _ => .ok none
  else .ok (assignedValue? text name)

/-- The value the files of variables of a directory assign to a name. -/
def override (name : Text) (dir : Path) : Except Abort (Option Text) :=
  valueIn ws ws.settings.overrideSuffixes (overrideIn name) dir

/-- What the configuration files of a directory declare. -/
def declared (extract : Text → Option Text) (dir : Path) : Except Abort (Option Text) :=
  valueIn ws ws.settings.configurationSuffixes (fun _ text => .ok (extract text)) dir

/-- The local value of a name in a directory. -/
def localValue (name : Text) (dir : Path) : Except Abort (Option Text) :=
  declared ws (localValue? · name) dir

/-- The output of a name in a directory. -/
def output (name : Text) (dir : Path) : Except Abort (Option Text) :=
  declared ws (outputValue? · name) dir

/-- The default of a variable in a directory. -/
def default (name : Text) (dir : Path) : Except Abort (Option Text) :=
  declared ws (variableDefault? · name) dir

/-- The argument of a data source in a directory. -/
def dataArgument (ref : Reference) (dir : Path) : Except Abort (Option Text) :=
  match ref.dataAddress? with
  | none => .ok none
  | some (type, name, field) => declared ws (dataArgument? · type name field) dir

/-! ### Modules -/

/-- The module calls of some files, in order. -/
def callsIn (dir : Path) : List Path → Except Abort (List ModuleCall)
  | [] => return []
  | path :: paths => do
    let calls := ((← text? ws path).map (Hcl.moduleCalls · dir)).getD []
    let more ← callsIn dir paths
    return calls ++ more

/-- The module calls of a directory. -/
def moduleCalls (dir : Path) : Except Abort (List ModuleCall) := do
  callsIn ws dir (← files ws dir ws.settings.configurationSuffixes)

/-- The directory that a source without quotes names for calls in a directory. -/
def modulePlace (source : Text) (dir : Path) : Except Abort (Option Path) := do
  if isRemote ws.settings source then return none
  let place := (← usable (sourcePath ws source dir)).normalize
  if !ws.contains place then return none
  if !isDirectory ws place then return none
  return some place

/-- The directory a module source names, if it is a directory of the workspace. -/
def modulePath (source : Text) (dir : Path) : Except Abort (Option Path) := do
  modulePlace ws (unquote source) (ws.normalize (← usable dir))

/-- The calls, in the directory above, of the module that a directory is. -/
def callsInto (dir : Path) : Except Abort (List ModuleCall) := do
  let parent := dir.parent
  if dir = ws.root || !ws.contains parent then return []
  let calls ← moduleCalls ws parent
  calls.filterM fun call =>
    return (← modulePath ws call.source parent) = some dir

/-! ### The search in one directory

`evaluate` gives a reference its value from a directory and inside some modules. -/

/-- Replaces one reference by its value if it has one. -/
def expandOne (evaluate : Reference → Except Abort (Option Text)) (expansion : Expansion)
    (ref : Reference) : Except Abort Expansion := do
  match ← evaluate ref with
  | some value =>
    return { expansion with value := substitute expansion.value ref.text value }
  | none => return { expansion with unresolved := expansion.unresolved ++ [ref] }

/-- The value with every reference in it replaced. -/
def expand (evaluate : Reference → Except Abort (Option Text)) (value : Text) :
    Except Abort (Option Text) := do
  let references := orderedReferences value
  let expansion ← references.foldlM (expandOne evaluate) { value }
  match references, expansion.unresolved with
  | [_], [ref] => if isAlias value ref then return none else return some expansion.value
  | _, _ => return some expansion.value

/-- The calls that may give a module its inputs, each with the stack outside the module. -/
def callSites (dir : Path) (stack : List ModuleFrame) :
    Except Abort (List (ModuleCall × List ModuleFrame)) := do
  match stack.getLast? with
  | some frame =>
    if frame.directory = dir then return [(frame.call, stack.dropLast)]
    else return (← callsInto ws dir).map fun call => (call, stack)
  | none => return (← callsInto ws dir).map fun call => (call, stack)

/-- The first value among look-ups. -/
def firstFound : List (Except Abort (Option Text)) → Except Abort (Option Text)
  | [] => return none
  | lookup :: rest => do
    match ← lookup with
    | some value => return some value
    | none => firstFound rest

/-- A value that was looked up settles the search, whether or not its references have
values. -/
def settle (evaluate : Reference → Except Abort (Option Text)) :
    Option Text → Except Abort (Option (Option Text))
  | some value => return some (← expand evaluate value)
  | none => return none

variable (mode : SearchMode)
  (evaluate : Reference → Path → List ModuleFrame → Except Abort (Option Text)) (name : Text)
  (ref : Reference) (dir : Path) (stack : List ModuleFrame)

/-- The first value that an argument at one of the call sites gives an input. -/
def threadArguments : List (ModuleCall × List ModuleFrame) → Except Abort (Option Text)
  | [] => return none
  | (call, stack) :: sites => do
    match call.inputs.get? name with
    | none => threadArguments sites
    | some argument =>
      match ← expand (evaluate · call.directory stack) argument with
      | some value => return some value
      | none => threadArguments sites

/-- The value that call sites give an input, in the mode that follows them. -/
def threadedInput : Except Abort (Option Text) :=
  match mode with
  | .plain => return none
  | .enhanced => do threadArguments evaluate name (← callSites ws dir stack)

/-- The value of an output of a called module. -/
def chaseOutput : Except Abort (Option Text) := do
  match ref.moduleAddress? with
  | none => return none
  | some (callName, outputName) =>
    let calls ← moduleCalls ws dir
    match calls.find? (·.name = callName) with
    | none => return none
    | some call =>
      match ← modulePath ws call.source call.directory with
      | none => return none
      | some target =>
        match ← output ws outputName target with
        | none => return none
        | some value =>
          let stack :=
            match mode with
            | .plain => stack
            | .enhanced => stack ++ [{ call, directory := target }]
          expand (evaluate · target stack) value

/-- The same reference in the parent directory. -/
def searchParent : Except Abort (Option Text) := do
  let parent := dir.parent
  if dir = ws.root || parent = dir || !ws.contains parent then
    return none
  if !isDirectory ws parent then return none
  evaluate ref parent stack

/-- The search for an input in one directory; nothing if the directory does not have it. -/
def searchInput : Except Abort (Option (Option Text)) := do
  let found ← firstFound [override ws name dir, localValue ws name dir, output ws name dir]
  if found.isSome then settle (evaluate · dir stack) found
  else
    let threaded ← threadedInput ws mode evaluate name dir stack
    if threaded.isSome then return some threaded
    settle (evaluate · dir stack) (← default ws name dir)

/-- The search for a symbol in one directory. -/
def searchDirectory : Except Abort (Option (Option Text)) := do
  match ref.kind with
  | .input => searchInput ws mode evaluate ref.name dir stack
  | .localValue =>
    settle (evaluate · dir stack) (← localValue ws ref.name dir)
  | .moduleOutput =>
    let chased ← chaseOutput ws mode evaluate ref dir stack
    if chased.isSome then return some chased else return none
  | .dataAttribute =>
    settle (evaluate · dir stack) (← dataArgument ws ref dir)

/-- The value of a symbol: from its directory, or else from the parent directory. -/
def searchSymbol : Except Abort (Option Text) := do
  match ← searchDirectory ws mode evaluate ref dir stack with
  | some value => return value
  | none => searchParent ws evaluate ref dir stack

/-- Takes the properties of a value one after the other. -/
def project : Option Text → List Text → Except Abort (Option Text)
  | none, _ => return none
  | some value, [] => return some value
  | some value, property :: properties =>
    match Literal.property? value property with
    | .ok value => project value properties
    | .error (.tooManyDigits digits) => .error (.tooManyDigits digits)
    | .error _ => return none

end Direct

/-! ### Evaluation -/

variable (ws : Workspace) (mode : SearchMode)

/-- The value of a reference from a directory, inside some modules, with this many levels
left. -/
def evaluate : (left : Nat) → Reference → Path → List ModuleFrame → Except Abort (Option Text)
  | 0, _, _, _ => return none
  | left + 1, ref, dir, stack => do
    let symbol ← Direct.searchSymbol ws mode (evaluate left)
      ref.base dir stack
    Direct.project symbol ref.properties

/-- The meaning of the frame of a context. -/
def evaluateFrame (ctx : Context) : Except Abort (Option Text) :=
  evaluate ws mode (ws.settings.maxDepth + 1 - ctx.depth) ctx.reference ctx.directory ctx.stack

/-- The value of a reference from a directory at some depth, by directory search. -/
def evaluatePlain (ref : Reference) (dir : Path) (depth : Nat) : Except Abort (Option Text) :=
  evaluate ws .plain (ws.settings.maxDepth + 1 - depth) ref dir []

/-- The answer to a request for a value. -/
def evaluateRequest (wanted : Wanted) (start : Path) : Except Abort (Option Text) := do
  match wanted.reference? with
  | none => return none
  | some ref =>
    let dir := ws.normalize (← Direct.usable start)
    if !ws.contains dir then return none
    if !Direct.isDirectory ws dir then return none
    evaluate ws mode (ws.settings.maxDepth + 1) ref dir []

end TerraformTrace
