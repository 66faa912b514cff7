import TerraformTrace.Text.Basic

/-!
# TerraformTrace.Path

Slash-separated paths. A path is kept as its components: empty components and `.`
vanish when a path is read, `..` stays until the path is normalised. A path that
starts with exactly two slashes keeps both, as the rules for such names ask; any
other number of leading slashes counts as one.

A NUL character can stand in the text of a path, but no file system can be asked about
such a path. Whoever takes paths from outside has to see that they are *usable*.
-/

namespace TerraformTrace

/-- Where a path starts. -/
inductive Anchor
  /-- At whatever directory the path is joined to. -/
  | relative
  /-- At the root. -/
  | root
  /-- At the root, written with two slashes. -/
  | doubleRoot
deriving DecidableEq, Repr

/-- A path as its components. -/
structure Path where
  anchor : Anchor
  parts : List Text
deriving DecidableEq, Repr

namespace Path

/-- The anchor that a text's leading slashes give it. -/
def anchorOf (text : Text) : Anchor :=
  match (text.takeWhile (· = '/')).length with
  | 0 => .relative
  | 2 => .doubleRoot
  | _ => .root

/-- Reads a path. -/
def ofText (text : Text) : Path :=
  { anchor := anchorOf text
    parts := (Text.splitAt '/' text).filter fun part => part ≠ [] && part ≠ ['.'] }

/-- Writes a path. The empty relative path is written as a dot. -/
def toText (path : Path) : Text :=
  let body := Text.join ['/'] path.parts
  match path.anchor with
  | .relative => if body.isEmpty then ['.'] else body
  | .root => '/' :: body
  | .doubleRoot => '/' :: '/' :: body

/-- Whether a path has a NUL character in it. -/
def hasNul (path : Path) : Bool := path.parts.any (·.contains '\x00')

/-- Whether a path does not depend on the directory it is read in. -/
def isAbsolute (path : Path) : Bool := path.anchor ≠ .relative

/-- The path read in a directory. An absolute path ignores the directory. -/
def join (dir path : Path) : Path :=
  if path.isAbsolute then path else { dir with parts := dir.parts ++ path.parts }

/-- The path of an entry of a directory. -/
def entry (dir : Path) (name : Text) : Path := dir.join (ofText name)

/-- The containing directory; the root contains itself. -/
def parent (path : Path) : Path := { path with parts := path.parts.dropLast }

/-- The last component, empty if there is none. -/
def name (path : Path) : Text := path.parts.getLast?.getD []

/-- The last component from its last dot on. A dot that starts or ends the component
gives it no suffix. -/
def suffix (path : Path) : Text :=
  let name := path.name
  let tail := (name.reverse.takeWhile (· ≠ '.')).reverse
  let stem := name.length - tail.length
  if stem ≤ 1 || tail.isEmpty then [] else '.' :: tail

/-- Removes `..` components together with the component before each; at the root
there is nothing to remove. `above` is the path so far, last component first. -/
def foldParents (above : List Text) : List Text → List Text
  | [] => above.reverse
  | part :: parts =>
    if part = ['.', '.'] then foldParents above.tail parts else foldParents (part :: above) parts

/-- An absolute path without `..` that names the same place. A relative path is taken to
start at the root, so it is joined to the directory it is read in before. -/
def normalize (path : Path) : Path := ⟨.root, foldParents [] path.parts⟩

/-- Whether a path lies at or below a directory, component by component. -/
def isWithin (dir path : Path) : Bool := dir.anchor = path.anchor && dir.parts.isPrefixOf path.parts

/-- The components of a path below a directory. -/
def relativeTo? (dir path : Path) : Option Path :=
  if dir.isWithin path then some ⟨.relative, path.parts.drop dir.parts.length⟩
  else none

end Path

/-! ### Usable paths -/

/-- What is wrong with a path that cannot be used. -/
structure UnusablePath where
  path : Path
deriving DecidableEq, Repr

/-- The system's wording of what is wrong with a path. -/
def UnusablePath.message (_ : UnusablePath) : Text := "embedded null byte".toList

/-- A path that a file system can be asked about. -/
def Path.usable (path : Path) : Except UnusablePath Path :=
  if path.hasNul then .error ⟨path⟩ else .ok path

end TerraformTrace
