import TerraformTrace.Hcl.Block
import TerraformTrace.Hcl.Item
import TerraformTrace.Path

/-!
# TerraformTrace.Hcl.Declaration

What the blocks of a configuration file declare: module calls with their inputs,
output values, local values, variable defaults and data arguments. A look-up takes
the first declaration that fits and gives its expression as text.
-/

namespace TerraformTrace.Hcl

open Text

/-- A map from names to texts that keeps the order in which names first appeared. -/
abbrev Inputs := List (Text × Text)

namespace Inputs

/-- Gives a name a value: in place if the name is there, else at the end. -/
def put (name value : Text) : Inputs → Inputs
  | [] => [(name, value)]
  | entry :: entries =>
    if entry.1 = name then (name, value) :: entries else entry :: put name value entries

/-- The input of a name. -/
def get? (inputs : Inputs) (name : Text) : Option Text := inputs.lookup name

end Inputs

/-! ### Module calls -/

/-- One `module "name" { source = ... }` block, as declared in a directory. -/
structure ModuleCall where
  name : Text
  /-- The source, without surrounding quotes. -/
  source : Text
  /-- The arguments of the call: expressions as written. -/
  inputs : Inputs
  /-- The directory that holds the block. -/
  directory : Path
deriving DecidableEq, Repr

/-- The arguments of a module block's body. The source is not one of them. -/
def moduleInputs (body : Text) : Inputs :=
  ((assignments body).filter (·.name ≠ "source".toList)).foldl
    (fun inputs assignment => Inputs.put assignment.name assignment.value inputs) []

/-- The call a module block makes; none without a label or a source. -/
def Block.moduleCall? (block : Block) (dir : Path) : Option ModuleCall :=
  match block.labels with
  | [] => none
  | name :: _ =>
    (assignedValue? block.body "source".toList).map fun source =>
      { name, source := unquote source, inputs := moduleInputs block.body, directory := dir }

/-- The module calls in a text. -/
def moduleCalls (text : Text) (dir : Path) : List ModuleCall :=
  (blocks text "module".toList).filterMap (·.moduleCall? dir)

/-! ### Look-ups -/

/-- The argument `field` of the first `keyword` block with these labels. -/
def argument? (text keyword : Text) (labels : List Text) (field : Text) : Option Text :=
  (blockBody? text keyword labels).bind (assignedValue? · field)

/-- The value of an output block. -/
def outputValue? (text name : Text) : Option Text :=
  argument? text "output".toList [name] "value".toList

/-- The default of a variable block. -/
def variableDefault? (text name : Text) : Option Text :=
  argument? text "variable".toList [name] "default".toList

/-- An argument of a data block. -/
def dataArgument? (text type name field : Text) : Option Text :=
  argument? text "data".toList [type, name] field

/-- The first local value of this name over all `locals` blocks. -/
def localValue? (text name : Text) : Option Text :=
  (blocks text "locals".toList).findSome? fun block => assignedValue? block.body name

end TerraformTrace.Hcl
