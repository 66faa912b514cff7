import TerraformTrace.Engine.Lookup
import TerraformTrace.Reference.Occurrence
import TerraformTrace.Reference.Substitution

/-!
# TerraformTrace.Engine.Resolve

Resolution of a reference from a directory. A directory is searched in this order, and
the first hit counts:

1. files of variables, for inputs;
2. `locals` declarations, for inputs and local values;
3. `output` declarations, for inputs;
4. the argument of a module call site, for inputs and in enhanced mode only;
5. `variable` defaults, for inputs;
6. the output of a called module, for module references;
7. the same in the parent directory, within the workspace.

A value found is searched for references in turn, which are resolved from where the
value was found and replaced by their values. The depth of nesting is bounded, and a
frame that is already on its own path is cut. A result that a cut had a part in is not
remembered: it depends on the path, which the key does not tell.

The recursion is on the number of levels left. A nested frame is resolved by the
function `nested`, which stands for the level below.
-/

namespace TerraformTrace

open Hcl

/-- The outcome of a frame. -/
structure Resolution where
  value : Option Text
  /-- False when a cycle was cut in or below the frame. -/
  cacheable : Bool := true
deriving DecidableEq, Repr

namespace Resolution

/-- Nothing was found. -/
def notFound : Resolution := { value := none }

/-- A cycle was cut. -/
def cut : Resolution := { value := none, cacheable := false }

end Resolution

/-! ### Values with references in them -/

/-- Whether the whole value is one reference, bare or as the only part of a string. -/
def isAlias (value : Text) (ref : Reference) : Bool :=
  let value := Text.strip value
  value = ref.text || ("\"$\x7b".toList.isPrefixOf value && Text.endsWith "\x7d\"".toList value &&
      Text.strip ((value.drop 3).dropLast.dropLast) = ref.text)

/-- Longer references come first; those of one length are in order. -/
def substitutionOrder (a b : Reference) : Bool :=
  b.text.length < a.text.length || (a.text.length = b.text.length && Text.le a.text b.text)

/-- The references of a value in the order in which they are replaced. -/
def orderedReferences (value : Text) : List Reference :=
  Text.sortBy substitutionOrder (references value)

/-- The state of an expansion: the value so far, whether it may be remembered, and the
references that were not found. -/
structure Expansion where
  value : Text
  cacheable : Bool := true
  unresolved : List Reference := []
deriving DecidableEq, Repr

variable (ws : Workspace) (mode : SearchMode) (nested : Context → Run Resolution) (ctx : Context)

/-- Replaces one reference by its value if it has one. -/
def expandOne (dir : Path) (stack : List ModuleFrame) (expansion : Expansion)
    (ref : Reference) : Run Expansion := do
  let result ← nested (ctx.child ref dir stack)
  let cacheable := expansion.cacheable && result.cacheable
  match result.value with
  | some value =>
    return { expansion with value := substitute expansion.value ref.text value, cacheable }
  | none =>
    return { expansion with cacheable, unresolved := expansion.unresolved ++ [ref] }

/-- The value with every reference in it replaced. A value that is nothing but one
reference without a value has no value either. -/
def expand (dir : Path) (stack : List ModuleFrame) (value : Text) : Run Resolution := do
  let references := orderedReferences value
  let expansion ← references.foldlM (expandOne nested ctx dir stack) { value }
  match references, expansion.unresolved with
  | [_], [ref] =>
    if isAlias value ref then return { value := none, cacheable := expansion.cacheable }
    else return { value := some expansion.value, cacheable := expansion.cacheable }
  | _, _ => return { value := some expansion.value, cacheable := expansion.cacheable }

/-! ### The search in one directory -/

/-- The calls that may give the module of a frame its inputs, each with the stack outside
the module. Inside a module that was entered by a call it is that call; otherwise it is
every call in the directory above. -/
def callSites : Run (List (ModuleCall × List ModuleFrame)) := do
  match ctx.currentModule? with
  | some frame =>
    if frame.directory = ctx.directory then return [(frame.call, ctx.leaving)]
    else return (← callsInto ws ctx.directory).map fun call => (call, ctx.stack)
  | none => return (← callsInto ws ctx.directory).map fun call => (call, ctx.stack)

/-- The first value that an argument at one of the call sites gives an input. -/
def threadArguments : (cacheable : Bool) → List (ModuleCall × List ModuleFrame) → Run Resolution
  | cacheable, [] => return { value := none, cacheable }
  | cacheable, (call, stack) :: sites => do
    match call.inputs.get? ctx.reference.name with
    | none => threadArguments cacheable sites
    | some argument =>
      let threaded ← expand nested ctx call.directory stack argument
      note (.threaded ctx call threaded.value threaded.cacheable)
      if threaded.value.isSome then return threaded
      else threadArguments (cacheable && threaded.cacheable) sites

/-- The value that module call sites give an input. -/
def threadInput : Run Resolution := do
  threadArguments nested ctx true (← callSites ws ctx)

/-- Follows a module output into its module. -/
def chaseOutput : Run Resolution := do
  match ctx.reference.moduleAddress? with
  | none => return .notFound
  | some (callName, outputName) =>
    let calls ← moduleCallsOf ws ctx.directory
    match calls.find? (·.name = callName) with
    | none => return .notFound
    | some call =>
      match ← modulePath ws call.source call.directory with
      | none => return .notFound
      | some target =>
        match ← lookupOutput ws outputName target with
        | none => return .notFound
        | some output =>
          let stack :=
            match mode with
            | .plain => ctx.stack
            | .enhanced => ctx.entering { call, directory := target }
          expand nested ctx target stack output

/-- Searches the directory above. -/
def searchParent : Run Resolution := do
  let dir := ctx.directory
  let parent := dir.parent
  if dir = ws.root || parent = dir || !ws.contains parent then
    return .notFound
  if !(← checkDirectory ws parent) then return .notFound
  nested (ctx.child ctx.reference parent ctx.stack)

/-- The first value among look-ups for an input in one directory. -/
def firstFound (lookups : List (Run (Option Text))) : Run (Option Text) :=
  match lookups with
  | [] => return none
  | lookup :: rest => do
    match ← lookup with
    | some value => return some value
    | none => firstFound rest

/-- What comes of searching one directory. -/
inductive SearchOutcome
  /-- The directory has the symbol, and this is what comes of it. -/
  | settled (resolution : Resolution)
  /-- The directory does not have it; `cacheable` as in a resolution. -/
  | missed (cacheable : Bool)
deriving DecidableEq, Repr

/-- A value that was looked up settles the search, whether or not its references have
values. -/
def settle : Option Text → Run SearchOutcome
  | some value => return .settled (← expand nested ctx ctx.directory ctx.stack value)
  | none => return .missed true

/-- Searches one directory for an input. -/
def searchInput : Run SearchOutcome := do
  let name := ctx.reference.name
  let dir := ctx.directory
  let found ← firstFound [lookupOverride ws name dir, lookupLocal ws name dir,
      lookupOutput ws name dir]
  if found.isSome then settle nested ctx found
  else
    let threaded ←
      match mode with
      | .plain => pure Resolution.notFound
      | .enhanced => threadInput ws nested ctx
    if threaded.value.isSome then return .settled threaded
    match ← settle nested ctx (← lookupDefault ws name dir) with
    | .settled resolution => return .settled resolution
    | .missed _ => return .missed threaded.cacheable

/-- The search for a symbol in one directory. A module reference without a value counts
as missed. -/
def searchDirectory : Run SearchOutcome := do
  match ctx.reference.kind with
  | .input => searchInput ws mode nested ctx
  | .localValue =>
    settle nested ctx (← lookupLocal ws ctx.reference.name ctx.directory)
  | .moduleOutput =>
    let chased ← chaseOutput ws mode nested ctx
    if chased.value.isSome then return .settled chased else return .missed chased.cacheable
  | .dataAttribute =>
    settle nested ctx (← lookupData ws ctx.reference ctx.directory)

/-- The value of a symbol: from its directory, or else from the parent directory. -/
def searchSymbol : Run Resolution := do
  match ← searchDirectory ws mode nested ctx with
  | .settled resolution => return resolution
  | .missed cacheable =>
    let above ← searchParent ws nested ctx
    return { above with cacheable := above.cacheable && cacheable }

/-! ### Frames -/

/-- Takes the properties of a value one after the other. -/
def project : Option Text → List Text → Run (Option Text)
  | none, _ => return none
  | some value, [] => return some value
  | some value, property :: properties =>
    match Literal.property? value property with
    | .ok value => project value properties
    | .error (.tooManyDigits digits) => throw (.tooManyDigits digits)
    | .error _ => return none

/-- The result of a frame from the cache, or else computed and, if that is sound,
remembered. -/
def remembered (compute : Run Resolution) : Run Resolution := do
  let key := cacheKey mode.kind.word ctx.keyParts
  match ← lookUp key with
  | some known => return { value := present? known.asText }
  | none =>
    let result ← compute
    if result.cacheable then remember key (.text (result.value.getD []))
    return result

/-- A frame: cut if it is on its own path, and otherwise answered from the cache or by
computing its result. -/
def frame (compute : Run Resolution) : Run Resolution := do
  note (.entered ctx)
  let result ←
    if ctx.isCycle then do
      note (.cycleCut ctx)
      pure .cut
    else remembered mode ctx compute
  note (.returned mode ctx result.value result.cacheable)
  return result

/-- Resolves the frame of a context with this many levels left. A reference with
properties is resolved as the frame of its symbol, whose value is then projected. -/
def resolveFrame : (left : Nat) → Context → Run Resolution
  | 0, ctx => do
    note (.depthReached ws.settings.maxDepth ctx)
    note (.returned mode ctx none true)
    return .notFound
  | left + 1, ctx =>
    let nested := resolveFrame left
    if ctx.reference.properties.isEmpty then
      frame mode ctx (searchSymbol ws mode nested ctx)
    else
      frame mode ctx do
        let symbol := ctx.withReference ctx.reference.base
        let base ← frame mode symbol (searchSymbol ws mode nested symbol)
        let value ← project base.value ctx.reference.properties
        return { value, cacheable := base.cacheable }

/-- Resolves a reference from a directory. -/
def resolveFrom (ref : Reference) (dir : Path) : Run Resolution :=
  resolveFrame ws mode (ws.settings.maxDepth + 1) { reference := ref, directory := dir }

end TerraformTrace
