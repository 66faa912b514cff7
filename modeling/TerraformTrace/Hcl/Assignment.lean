import TerraformTrace.Hcl.Mask

/-!
# TerraformTrace.Hcl.Assignment

Assignments `name = value` at brace depth zero of a text: a whole file, or the body
of a block. A statement starts at the beginning of the text, after a line break or
after a comma. A value runs until a line break, a comma, a comment or an unmatched
closing bracket at depth zero, so braced and bracketed values may span lines; the
value of a heredoc is its body.

The scan walks the text and its mask side by side. After an assignment it passes
over the characters that belong to it.
-/

namespace TerraformTrace.Hcl

open Text

/-- One assignment, with the positions of its first character and after its last. -/
structure Assignment where
  name : Text
  value : Text
  start : Nat
  stop : Nat
deriving DecidableEq, Repr

/-- An opening bracket of any kind. -/
def isOpener (c : Char) : Bool := c = '{' || c = '[' || c = '('

/-- A closing bracket of any kind. -/
def isCloser (c : Char) : Bool := c = '}' || c = ']' || c = ')'

/-! ### Keys -/

/-- A name, optionally quoted, with the operator after it. -/
structure Key where
  name : Text
  /-- Number of characters up to and with the operator. -/
  length : Nat
deriving DecidableEq, Repr

/-- One if a text starts with a double quote, else zero. -/
def quoteLength (text : Text) : Nat := if text.head? = some '"' then 1 else 0

/-- Whether a text starts with an assignment operator: `=`, but not `==` or `=>`, and
`:` where object fields are read. -/
def startsWithOperator (colon : Bool) : Text → Bool
  | '=' :: rest => rest.head? ≠ some '=' && rest.head? ≠ some '>'
  | ':' :: _ => colon
  | _ => false

/-- The key a text starts with, if it starts with one. -/
def key? (colon : Bool) (text : Text) : Option Key :=
  let opening := quoteLength text
  (leadingName? (text.drop opening)).bind fun name =>
    let rest := text.drop (opening + name.length)
    let closing := quoteLength rest
    let gap := ((rest.drop closing).takeWhile isGap).length
    if startsWithOperator colon (rest.drop (closing + gap)) then
      some { name, length := opening + name.length + closing + gap + 1 }
    else none

/-- Whether the mask shows both ends of a key as code. -/
def Key.isVisible (key : Key) (text mask : Text) : Bool :=
  mask.head? = text.head? && mask[key.length - 1]? = text[key.length - 1]?

/-! ### Values -/

/-- Whether a mask character ends a value at depth zero. -/
def endsValue (c : Char) : Bool := c = '\n' || c = ',' || c = hidden

/-- The number of mask characters a plain value takes when `depth` brackets are open,
or none if one of them is never closed. -/
def extent? : Nat → Text → Option Nat
  | 0, [] => some 0
  | _ + 1, [] => none
  | depth, c :: rest =>
    if isOpener c then (extent? (depth + 1) rest).map (· + 1)
    else if isCloser c then
      match depth with
      | 0 => some 0
      | depth + 1 => (extent? depth rest).map (· + 1)
    else if depth = 0 && endsValue c then some 0
    else (extent? depth rest).map (· + 1)

/-- The value after an operator, and the number of characters up to its end. A value
with an unclosed bracket is cut at the end of its first line. -/
def readValue (text mask : Text) : Text × Nat :=
  let gap := (text.takeWhile isGap).length
  let rest := text.drop gap
  match Heredoc.header? rest with
  | some header =>
    let (value, read) := Heredoc.body header (rest.drop header.length)
    (value, gap + header.length + read)
  | none =>
    match extent? 0 (mask.drop gap) with
    | some n => (stripRight (rest.take n), gap + n)
    | none => (strip (firstLine rest), gap + (firstLine rest).length)

/-! ### Scanning -/

/-- The depth after a mask character; a closing bracket with nothing open changes
nothing. -/
def nextDepth (depth : Nat) (c : Char) : Nat :=
  if isOpener c then depth + 1 else if isCloser c then depth - 1 else depth

/-- Reads the assignment a text starts with, if it starts with one in code. The
number is the characters it takes. -/
def assignmentAt? (colon : Bool) (start : Nat) (text mask : Text) : Option (Assignment × Nat) :=
  (key? colon text).bind fun key =>
    if key.isVisible text mask then
      let (value, read) := readValue (text.drop key.length) (mask.drop key.length)
      let length := key.length + read
      some ({ name := key.name, value, start, stop := start + length }, length)
    else none

/-- The assignments of the rest of a text and its mask from position `pos` on.
The next `skip` characters belong to an assignment already read; `fresh` says that a
statement may start here. -/
def scanAssignments (colon : Bool) :
    (skip depth : Nat) → (fresh : Bool) → (pos : Nat) → Text → Text → List Assignment
  | _, _, _, _, [], _ => []
  | _, _, _, _, _ :: _, [] => []
  | skip + 1, depth, fresh, pos, _ :: text, _ :: mask =>
    scanAssignments colon skip depth fresh (pos + 1) text mask
  | 0, depth, fresh, pos, c :: text, m :: mask =>
    if fresh && depth = 0 then
      if isIndent m then scanAssignments colon 0 depth true (pos + 1) text mask
      else
        match assignmentAt? colon pos (c :: text) (m :: mask) with
        | some (assignment, length) =>
          assignment :: scanAssignments colon (length - 1) depth false (pos + 1) text mask
        | none =>
          scanAssignments colon 0 (nextDepth depth m) (m = '\n' || m = ',') (pos + 1)
            text mask
    else
      scanAssignments colon 0 (nextDepth depth m)
        (fresh || (depth = 0 && (m = '\n' || m = ','))) (pos + 1) text mask

/-- Every assignment at depth zero of a text, in order. With `colon`, object fields
`name: value` count as well. -/
def assignments (text : Text) (colon : Bool := false) : List Assignment :=
  scanAssignments colon 0 0 true 0 text (mask text)

/-- The value of the first assignment to `name` at depth zero of a text. -/
def assignedValue? (text name : Text) (colon : Bool := false) : Option Text :=
  ((assignments text colon).find? (·.name = name)).map (·.value)

end TerraformTrace.Hcl
