import TerraformTrace.Text.Blank
import TerraformTrace.Text.Word

/-!
# TerraformTrace.Hcl.Heredoc

Heredocs: a header `<<MARKER` or `<<-MARKER` that ends its line, body lines, and a
terminator line that holds the marker alone. The dashed form removes the indentation
that all non-blank body lines share.

A heredoc that is never terminated takes the rest of the text as its body.
-/

namespace TerraformTrace.Hcl

open Text

namespace Heredoc

/-- The first line of a heredoc. -/
structure Header where
  /-- Whether shared indentation is removed (`<<-`). -/
  dedent : Bool
  /-- The marker, an ASCII letter or underscore and then word characters. -/
  marker : Text
  /-- Number of characters of the header, its line break included. -/
  length : Nat
deriving DecidableEq, Repr

/-- The number of characters up to and with a line break, if only spaces and tabs,
and at most one carriage return, stand before it. -/
def lineEnd? (text : Text) : Option Nat :=
  let gap := (text.takeWhile isGap).length
  match text.drop gap with
  | '\n' :: _ => some (gap + 1)
  | '\r' :: '\n' :: _ => some (gap + 2)
  | _ => none

/-- The marker line of a header, after `<<` or `<<-`. -/
def markerLine? (dedent : Bool) (start : Nat) : Text → Option Header
  | c :: rest =>
    if isNameStart c then
      let tail := rest.takeWhile isWord
      (lineEnd? (rest.drop tail.length)).map fun n =>
        { dedent, marker := c :: tail, length := start + 1 + tail.length + n }
    else none
  | [] => none

/-- The heredoc header a text starts with, if it starts with one. -/
def header? : Text → Option Header
  | '<' :: '<' :: '-' :: rest => markerLine? true 3 rest
  | '<' :: '<' :: rest => markerLine? false 2 rest
  | _ => none

/-! ### Bodies -/

/-- Whether a line ends a heredoc: the marker with only blanks around it. -/
def isTerminator (marker line : Text) : Bool := strip line = marker

/-- The lines of a body, and the number of characters read up to the end of the
terminator line (its line break excluded), or of the whole text without one. -/
def bodyLines (marker : Text) : List Text → List Text × Nat
  | [] => ([], 0)
  | line :: rest =>
    if isTerminator marker line then ([], line.length)
    else
      let (lines, read) := bodyLines marker rest
      (line :: lines, line.length + 1 + read)

/-- Number of blanks in front. -/
def indentation (line : Text) : Nat := line.length - (stripLeft line).length

/-- The indentation that all non-blank lines share, zero if there are none. -/
def sharedIndentation (lines : List Text) : Nat :=
  ((lines.filter fun line => !(strip line).isEmpty).map indentation).min?.getD 0

/-- Removes the shared indentation. -/
def dedentLines (lines : List Text) : List Text :=
  lines.map (·.drop (sharedIndentation lines))

/-- The value of a heredoc from the text after its header, and the number of
characters the body and the terminator take. -/
def body (header : Header) (text : Text) : Text × Nat :=
  let (lines, read) := bodyLines header.marker (Text.lines text)
  let lines := lines.map (dropRightWhile (· = '\r'))
  let lines := if header.dedent then dedentLines lines else lines
  (Text.join ['\n'] lines, min read text.length)

end Heredoc

end TerraformTrace.Hcl
