import TerraformTrace.Hcl.Declaration
import TerraformTrace.Reference.Basic

/-!
# TerraformTrace.Engine.Context

The state of one call frame of a resolution. Contexts are values: a nested frame gets
a context derived from its parent's, so the visited frames of a context are those on
its own path and none of a branch that has returned.
-/

namespace TerraformTrace

open Hcl

/-- A module boundary crossed on the way to a module output. -/
structure ModuleFrame where
  call : ModuleCall
  /-- The module's own directory. -/
  directory : Path
deriving DecidableEq, Repr

/-- The call of a frame as a text: its directory and its name. -/
def ModuleFrame.signature (frame : ModuleFrame) : Text :=
  frame.call.directory.toText ++ "::".toList ++ frame.call.name

/-- One call frame: what is resolved, from where, and how it was reached. -/
structure Context where
  reference : Reference
  directory : Path
  /-- Number of frames above this one. -/
  depth : Nat := 0
  /-- Directory and reference of each frame above this one. The depth is not part of a
  pair: meeting the same reference in the same directory again is a cycle at any depth. -/
  visited : List (Text × Text) := []
  /-- The module boundaries crossed, outermost first. -/
  stack : List ModuleFrame := []
deriving DecidableEq, Repr

namespace Context

/-- What identifies a frame on its path. -/
def key (ctx : Context) : Text × Text := (ctx.directory.toText, ctx.reference.text)

/-- Whether the frame is on its own path. -/
def isCycle (ctx : Context) : Bool := ctx.visited.contains ctx.key

/-- The innermost module. -/
def currentModule? (ctx : Context) : Option ModuleFrame := ctx.stack.getLast?

/-- The stack inside a module. -/
def entering (ctx : Context) (frame : ModuleFrame) : List ModuleFrame := ctx.stack ++ [frame]

/-- The stack outside the innermost module. -/
def leaving (ctx : Context) : List ModuleFrame := ctx.stack.dropLast

/-- The frame of a reference met here. -/
def child (ctx : Context) (ref : Reference) (dir : Path) (stack : List ModuleFrame) : Context :=
  { reference := ref, directory := dir, depth := ctx.depth + 1
    visited := ctx.visited.insert ctx.key, stack }

/-- The frame with another reference. -/
def withReference (ctx : Context) (ref : Reference) : Context := { ctx with reference := ref }

/-- What the result of a frame is remembered under. -/
def keyParts (ctx : Context) : List Text :=
  [ctx.reference.text, ctx.directory.toText, Text.ofNat ctx.depth,
    Text.join ['|'] (ctx.stack.map (·.signature))]

end Context

end TerraformTrace
