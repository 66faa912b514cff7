import TerraformTrace.Path
import TerraformTrace.Text.Encoding

/-!
# TerraformTrace.Files.Tree

A tree of files as a value. The tree lists the places that exist, each with a file's
bytes or as a directory; the root always exists. Walking a path goes component by
component and fails at the first that does not exist, is too long, or lies below
something that is not a directory. A path that is too long as a whole fails at once.
-/

namespace TerraformTrace

/-- What can stand at a place. -/
inductive Node
  | directory
  | file (content : Bytes)
deriving DecidableEq, Repr

/-- A tree of files: the components of each place below the root, and what stands
there. -/
structure FileTree where
  places : List (List Text × Node) := []
deriving Repr

/-- Why a path does not lead where it should. -/
inductive WalkError
  | missing
  | notDirectory
  | isDirectory
  | nameTooLong
deriving DecidableEq, Repr

/-- The wording of an error. -/
def WalkError.message (error : WalkError) (path : Text) : Text :=
  let head :=
    match error with
    | .missing => "[Errno 2] No such file or directory: "
    | .notDirectory => "[Errno 20] Not a directory: "
    | .isDirectory => "[Errno 21] Is a directory: "
    | .nameTooLong => "[Errno 36] File name too long: "
  head.toList ++ path

namespace FileTree

variable (tree : FileTree)

/-- What stands at a place. -/
def node? (place : List Text) : Option Node :=
  if place.isEmpty then some .directory else tree.places.lookup place

/-- Puts something at a place. -/
def put (place : List Text) (node : Node) : FileTree :=
  { places := (place, node) :: tree.places.filter (·.1 ≠ place) }

/-- Makes a directory and every directory above it, where nothing stands yet. -/
def makeDirectory (place : List Text) : FileTree :=
  ((List.range (place.length + 1)).map place.take).foldl
    (fun tree above => if (tree.node? above).isSome then tree else tree.put above .directory) tree

/-- Writes a file. -/
def write (place : List Text) (content : Bytes) : FileTree :=
  (tree.makeDirectory place.dropLast).put place (.file content)

/-- The names in a directory, sorted. -/
def children (place : List Text) : List Text :=
  Text.sort (tree.places.filterMap fun entry =>
    if entry.1.dropLast = place then entry.1.getLast? else none)

/-- The greatest length of a name. -/
def maxNameBytes : Nat := 255

/-- The greatest length of a path. -/
def maxPathBytes : Nat := 4095

/-- Number of bytes of a name in UTF-8. -/
def nameBytes (name : Text) : Nat := name.foldl (fun bytes c => bytes + c.utf8Size) 0

/-- Walks from a place on along components; `..` leads to the directory above. -/
def walk (place : List Text) : List Text → Except WalkError (List Text × Node)
  | [] =>
    match tree.node? place with
    | some node => .ok (place, node)
    | none => .error .missing
  | part :: parts =>
    match tree.node? place with
    | none => .error .missing
    | some (.file _) => .error .notDirectory
    | some .directory =>
      if part = ['.', '.'] then walk place.dropLast parts
      else if maxNameBytes < nameBytes part then .error .nameTooLong
      else walk (place ++ [part]) parts

/-- What a path leads to, and where. -/
def find (path : Path) : Except WalkError (List Text × Node) :=
  if maxPathBytes < nameBytes path.toText then .error .nameTooLong else tree.walk [] path.parts

/-- What a path leads to, if it leads anywhere. A name that is too long is an error. -/
def probe (path : Path) : Except WalkError (Option Node) :=
  match tree.find path with
  | .ok (_, node) => .ok (some node)
  | .error .nameTooLong => .error .nameTooLong
  | .error _ => .ok none

/-- Whether a path leads anywhere. -/
def pathExists (path : Path) : Bool := (tree.find path).isOk

/-- Whether a path leads to a directory. -/
def isDirectory (path : Path) : Bool :=
  match tree.find path with
  | .ok (_, .directory) => true
  | _ => false

/-- The names a directory holds. -/
def list (path : Path) : Except WalkError (List Text) :=
  match tree.find path with
  | .ok (place, .directory) => .ok (tree.children place)
  | .ok (_, .file _) => .error .notDirectory
  | .error error => .error error

/-- The bytes of a file. -/
def content (path : Path) : Except WalkError Bytes :=
  match tree.find path with
  | .ok (_, .file content) => .ok content
  | .ok (_, .directory) => .error .isDirectory
  | .error error => .error error

end FileTree

end TerraformTrace
