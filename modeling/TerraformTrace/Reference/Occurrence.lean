import TerraformTrace.Hcl.Mask
import TerraformTrace.Reference.Basic

/-!
# TerraformTrace.Reference.Occurrence

Where references occur in a text: in code and in interpolations, never in comments or
in the literal part of a string. An occurrence does not start inside a word or after a
dot, and it takes as many segments as follow. What looks like a reference but has too
few segments for its kind (`module.vpc`) is passed over.
-/

namespace TerraformTrace

open Text

/-- A reference in a text, with the positions of its first character and after its
last. -/
structure Occurrence where
  reference : Reference
  start : Nat
  stop : Nat
deriving DecidableEq, Repr

namespace Occurrence

/-- Whether a reference may start after this character. -/
def mayFollow (before : Option Char) : Bool := !before.any fun c => isWord c || c = '.'

/-- The occurrences in the rest of a mask from position `pos` on. The next `skip`
characters belong to a path already read; `before` is the character read last. -/
def scan : (skip : Nat) → (before : Option Char) → (pos : Nat) → Text → List Occurrence
  | _, _, _, [] => []
  | skip + 1, _, pos, c :: rest => scan skip (some c) (pos + 1) rest
  | 0, before, pos, c :: rest =>
    match if mayFollow before then Reference.leadingReference? (c :: rest) else none with
    | none => scan 0 (some c) (pos + 1) rest
    | some (kind, segments, length) =>
      let more := scan (length - 1) (some c) (pos + 1) rest
      match Reference.make kind segments with
      | .ok ref => { reference := ref, start := pos, stop := pos + length } :: more
      | .error _ => more

end Occurrence

/-- Every occurrence of a reference in a text, in order. -/
def occurrences (text : Text) : List Occurrence := Occurrence.scan 0 none 0 (Hcl.mask text)

/-- The distinct references of a text, in the order of their first occurrence. -/
def references (text : Text) : List Reference := ((occurrences text).map (·.reference)).eraseDups

end TerraformTrace
