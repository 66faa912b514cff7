import TerraformTrace.Engine.Query

/-!
# TerraformTrace.Scan

A document with its references annotated: every occurrence of a reference in a region
of text, with the values it has from each candidate directory. Equal values are
grouped. A scan can be cancelled between two occurrences, and then gives the
annotations made so far.

The line of a position is found by bisection among the positions at which lines start.
-/

namespace TerraformTrace

/-- A value with every context that has it. -/
structure SharedValue where
  value : Text
  contexts : List Text
  directories : List Path
deriving DecidableEq, Repr

/-- Adds a value to the group it belongs to, or as a group of its own at the end. -/
def SharedValue.add (item : ContextValue) : List SharedValue → List SharedValue
  | [] => [{ value := item.value, contexts := [item.context], directories := [item.directory] }]
  | group :: groups =>
    if group.value = item.value then
      { group with
        contexts := group.contexts ++ [item.context]
        directories := group.directories ++ [item.directory] } :: groups
    else group :: SharedValue.add item groups

/-- Groups equal values, in the order in which they first appear. -/
def mergeValues (values : List ContextValue) : List SharedValue :=
  values.foldl (fun groups item => SharedValue.add item groups) []

/-- An occurrence of a reference with its values. Lines and columns count from zero. -/
structure AnnotatedReference where
  reference : Text
  line : Nat
  column : Nat
  values : List SharedValue
deriving DecidableEq, Repr

/-! ### Lines -/

/-- The positions behind the line ends of a text that begins at a position. -/
def lineStartsFrom (pos : Nat) : Text → List Nat
  | [] => []
  | c :: rest =>
    if c = '\n' then (pos + 1) :: lineStartsFrom (pos + 1) rest
    else lineStartsFrom (pos + 1) rest

/-- The positions at which the lines of a text start. -/
def lineStarts (text : Text) : Array Nat := (0 :: lineStartsFrom 0 text).toArray

/-- How many of some sorted numbers are at most `x`, if all before `low` are and none from
`high` on is. -/
def bisectRight (numbers : Array Nat) (x low high : Nat) : Nat :=
  if low < high then
    let middle := (low + high) / 2
    if x < numbers.getD middle 0 then bisectRight numbers x low middle
    else bisectRight numbers x (middle + 1) high
  else low
termination_by high - low

/-- Line and column of a position, by the positions at which lines start. -/
def lineAndColumn (starts : Array Nat) (pos : Nat) : Nat × Nat :=
  let line := bisectRight starts pos 0 starts.size - 1
  (line, pos - starts.getD line 0)

/-! ### Annotations -/

/-- When a scan is cancelled: never, or at the first check after so many. -/
abbrev Cancellation := Option Nat

/-- Why a document is not scanned. -/
inductive ScanError
  /-- The document, or the directory of an environment, has a path that cannot be used. -/
  | unusablePath (error : UnusablePath)
  /-- A line comes before the first line of the document. -/
  | negativeLine
deriving DecidableEq, Repr

/-- The wording of why a document is not scanned. -/
def ScanError.message : ScanError → Text
  | .unusablePath error => error.message
  | .negativeLine => "A line comes before the first line of the document".toList

/-- Annotates occurrences one after the other. `starts` are the positions at which lines
start. -/
def annotate (ws : Workspace) (gather : Gather) (starts : Array Nat)
    (candidates : List Path) (offset : Int) :
    Cancellation → List Occurrence → Query (Except ScanError (List AnnotatedReference))
  | _, [] => return .ok []
  | some 0, _ :: _ => return .ok []
  | cancellation, occurrence :: rest => do
    let values ← gather ws (.reference occurrence.reference) candidates
    let (line, column) := lineAndColumn starts occurrence.start
    let line := (line : Int) + offset
    if line < 0 then return .error .negativeLine
    let entry : AnnotatedReference :=
      { reference := occurrence.reference.text, line := line.toNat, column
        values := mergeValues values }
    match ← annotate ws gather starts candidates offset (cancellation.map (· - 1)) rest with
    | .ok more => return .ok (entry :: more)
    | .error error => return .error error

/-- Annotates a region of a document that starts at line `offset`. The values from the
candidate directories come by `gather`. -/
def scan (ws : Workspace) (text : Text) (document : Path) (offset : Int := 0)
    (cancellation : Cancellation := none) (gather : Gather := resolveEach) :
    Query (Except ScanError (List AnnotatedReference)) :=
  match candidateDirectories ws document.parent with
  | .error error => return .error (.unusablePath error)
  | .ok candidates =>
    annotate ws gather (lineStarts text) candidates offset cancellation (occurrences text)

end TerraformTrace
