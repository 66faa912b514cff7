import TerraformTrace.Hcl.Assignment

/-!
# TerraformTrace.Hcl.Item

The items of a list literal: a text cut at the separators that stand outside strings,
comments and brackets. Comments are removed from the items and empty items are
dropped, so a trailing separator adds none.
-/

namespace TerraformTrace.Hcl

open Text

/-- A text without its comment characters and without blanks at its ends. -/
def withoutComments (text mask : Text) : Text :=
  strip (((text.zip mask).filter fun pair => pair.2 ≠ hidden).map (·.1))

/-- The pieces of a text, with their masks, between the separators at depth zero. -/
def splitItems (separator : Text) : (depth : Nat) → Text → Text → List (Text × Text)
  | _, [], _ => [([], [])]
  | _, _ :: _, [] => [([], [])]
  | depth, c :: text, m :: mask =>
    if depth = 0 && !isOpener m && !isCloser m && separator = [m] then
      ([], []) :: splitItems separator depth text mask
    else
      match splitItems separator (nextDepth depth m) text mask with
      | [] => [([c], [m])]
      | (piece, shown) :: pieces => (c :: piece, m :: shown) :: pieces

/-- The items of a text. A separator that is not a single character never splits. -/
def items (text : Text) (separator : Text := [',']) : List Text :=
  ((splitItems separator 0 text (mask text)).map fun piece =>
    withoutComments piece.1 piece.2).filter (!·.isEmpty)

/-- Strips blanks, and then one pair of surrounding double quotes if there is one. -/
def unquote (value : Text) : Text :=
  let value := strip value
  if 2 ≤ value.length && value.head? = some '"' && value.getLast? = some '"' then inner value
  else value

end TerraformTrace.Hcl
