import TerraformTrace.Hcl.Heredoc

/-!
# TerraformTrace.Hcl.Mask

**The mask of a text** is a text of the same length in which only code survives:
string contents and heredoc bodies become spaces, comments become U+0000, and code,
also inside `${...}` interpolations, stays as it is. The quotes of a string stay
visible; the `${` and `}` of an interpolation do not, so they never count as
braces. Line breaks are always kept.

Every structural decision of the library is taken on the mask, and positions found
there cut the text itself.

The machine reads one character at a time and shows one character for it, so the
mask has the length of the text by construction. What it needs to know of the text
ahead (a two-character token, a heredoc header, a terminator line) it looks up in
the rest, and it then owes the cover of that token to the characters to come.
-/

namespace TerraformTrace.Hcl

open Text

/-- What is shown for a comment character. -/
def hidden : Char := '\x00'

namespace Mask

/-- The constructs that enclose a position, apart from the code of the file itself. -/
inductive Mode
  | string
  /-- Inside the interpolation `${...}`, with this many braces open in it. -/
  | interpolation (braces : Nat)
  /-- Inside the body of the heredoc with this marker. -/
  | heredoc (marker : Text)
  /-- After `#` or `//`, up to the end of the line. -/
  | lineComment
  /-- Inside `/* ... */`. -/
  | blockComment
deriving DecidableEq, Repr

/-- How a character is shown. -/
inductive Cover
  /-- As itself. -/
  | keep
  /-- As a space. -/
  | blank
  /-- As U+0000. -/
  | hide
deriving DecidableEq, Repr

/-- The character shown under a cover. -/
def Cover.apply : Cover → Char → Char
  | .keep, c => c
  | .blank, _ => ' '
  | .hide, _ => hidden

/-- Where the machine stands between two characters. -/
structure State where
  /-- The enclosing constructs, innermost first; none at top level. -/
  modes : List Mode := []
  /-- Whether only indentation stands between the last line break and here. -/
  lineStart : Bool := true
  /-- Number of characters to come that belong to a token already recognised. -/
  owed : Nat := 0
  /-- How those characters are shown. -/
  cover : Cover := .keep
deriving DecidableEq, Repr

/-- The state at the start of a text: top-level code. -/
def State.start : State := {}

/-- Opens a construct. -/
def State.enter (s : State) (mode : Mode) : State := { s with modes := mode :: s.modes }

/-- Closes the innermost construct. -/
def State.leave (s : State) : State := { s with modes := s.modes.tail }

/-- Covers the next `n` characters alike. -/
def State.owe (s : State) (n : Nat) (cover : Cover) : State := { s with owed := n, cover }

/-- Enters an interpolation whose `{` comes next. -/
def State.interpolate (s : State) : State := (s.enter (.interpolation 0)).owe 1 .blank

/-! ### One step per construct

Each function gives the cover of the character `c`, which stands before `rest`, and
the state after it. -/

/-- A comment up to the end of the line. -/
def lineCommentStep (s : State) (c : Char) : Cover × State :=
  if c = '\n' then (.keep, { s.leave with lineStart := true }) else (.hide, s)

/-- A comment up to `*/`. -/
def blockCommentStep (s : State) (c : Char) (rest : Text) : Cover × State :=
  if c = '*' && rest.head? = some '/' then (.hide, s.leave.owe 1 .hide)
  else if c = '\n' then (.keep, s)
  else (.hide, s)

/-- A heredoc body. The terminator line stays visible. -/
def heredocStep (marker : Text) (s : State) (c : Char) (rest : Text) : Cover × State :=
  let line := firstLine (c :: rest)
  if s.lineStart && Heredoc.isTerminator marker line then
    (.keep, { s.leave with lineStart := false }.owe (line.length - 1) .keep)
  else
    let s := { s with lineStart := c = '\n' }
    if c = '$' && rest.head? = some '{' then (.blank, s.interpolate)
    else if c = '\n' then (.keep, s)
    else (.blank, s)

/-- A quoted string. A string cannot span lines, so a line break ends it too. -/
def stringStep (s : State) (c : Char) (rest : Text) : Cover × State :=
  if c = '\\' && rest.head?.any (· ≠ '\n') then (.blank, s.owe 1 .blank)
  else if c = '$' && ['$', '{'].isPrefixOf rest then (.blank, s.owe 2 .blank)
  else if c = '$' && rest.head? = some '{' then (.blank, s.interpolate)
  else if c = '"' then (.keep, s.leave)
  else if c = '\n' then (.keep, { s.leave with lineStart := true })
  else (.blank, s)

/-- The braces of an interpolation; every other character is plain code. -/
def braceStep (s : State) (c : Char) : Cover × State :=
  match s.modes with
  | .interpolation braces :: modes =>
    if c = '{' then (.keep, { s with modes := .interpolation (braces + 1) :: modes })
    else if c = '}' then
      match braces with
      | 0 => (.blank, { s with modes })
      | braces + 1 => (.keep, { s with modes := .interpolation braces :: modes })
    else (.keep, s)
  | _ => (.keep, s)

/-- Code, at top level or inside an interpolation. -/
def codeStep (s : State) (c : Char) (rest : Text) : Cover × State :=
  if c = '\n' then (.keep, { s with lineStart := true })
  else
    let s := { s with lineStart := s.lineStart && isIndent c }
    if c = '"' then (.keep, s.enter .string)
    else if c = '#' || (c = '/' && rest.head? = some '/') then (.hide, s.enter .lineComment)
    else if c = '/' && rest.head? = some '*' then
      (.hide, (s.enter .blockComment).owe 1 .hide)
    else
      match Heredoc.header? (c :: rest) with
      | some header =>
        (.keep, ({ s with lineStart := true }.enter (.heredoc header.marker)).owe
          (header.length - 1) .keep)
      | none => braceStep s c

/-- The cover of one character, which stands before `rest`, and the state after it. -/
def step (s : State) (c : Char) (rest : Text) : Cover × State :=
  match s.owed with
  | n + 1 => (s.cover, { s with owed := n })
  | 0 =>
    match s.modes with
    | .lineComment :: _ => lineCommentStep s c
    | .blockComment :: _ => blockCommentStep s c rest
    | .heredoc marker :: _ => heredocStep marker s c rest
    | .string :: _ => stringStep s c rest
    | _ => codeStep s c rest

/-! ### Runs -/

/-- The mask of a text read from a state. -/
def run (s : State) : Text → Text
  | [] => []
  | c :: rest =>
    let (cover, next) := step s c rest
    cover.apply c :: run next rest

/-- The state after a text. -/
def finish (s : State) : Text → State
  | [] => s
  | c :: rest => finish (step s c rest).2 rest

end Mask

/-- A text with all but its code blanked out. -/
def mask (text : Text) : Text := Mask.run .start text

theorem Mask.length_run (s : Mask.State) (text : Text) :
    (Mask.run s text).length = text.length := by
  induction text generalizing s with
  | nil => rfl
  | cons c rest ih => simp [Mask.run, ih]

@[simp]
theorem length_mask (text : Text) : (mask text).length = text.length :=
  Mask.length_run _ _

end TerraformTrace.Hcl
