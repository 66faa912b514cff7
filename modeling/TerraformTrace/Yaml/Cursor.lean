import TerraformTrace.Text.Basic

/-!
# TerraformTrace.Yaml.Cursor

Places in a YAML text, and the classes of characters that decide where something starts
or ends. Five kinds of characters end a word: the space, the tab and the line breaks,
and so does the end of the text. Of the line breaks only the line feed starts a new
line in the sense of columns; the others break lines of scalars and comments but count
as characters of their line.
-/

namespace TerraformTrace.Yaml

/-! ### Characters -/

/-- A line break. -/
def isBreak (c : Char) : Bool := c = '\n' || c = '\u0085' || c = '\u2028' || c = '\u2029'

/-- A space or tab. -/
def isSpace (c : Char) : Bool := c = ' ' || c = '\t'

/-- A character that ends a word. -/
def endsWord (c : Char) : Bool := isSpace c || isBreak c

/-- Whether a word ends before a text: at a blank, a line break or the end. -/
def atWordEnd (text : Text) : Bool := text.head?.all endsWord

/-- The mark of the byte order, which takes no column. -/
def byteOrderMark : Char := '\ufeff'

/-- The characters a document can be made of. -/
def isAllowed (c : Char) : Bool :=
  c = '\t' || c = '\n' || c = '\r' || (0x20 ≤ c.toNat && c.toNat ≤ 0x7E) || c = '\u0085' ||
    (0xA0 ≤ c.toNat && c.toNat ≤ 0xFFFD) || 0x10000 ≤ c.toNat

/-- Whether a text starts with three times a character, as a word. -/
def isMarker (mark : Char) (text : Text) : Bool :=
  [mark, mark, mark].isPrefixOf text && atWordEnd (text.drop 3)

/-- Whether a text starts with the start or the end of a document. -/
def startsMarker (text : Text) : Bool := isMarker '-' text || isMarker '.' text

/-! ### Folded lines -/

/-- What stands for a line break in a scalar: a line feed, or one of the separators
itself. -/
def brokenBy (c : Char) : Char := if c = '\u0085' then '\n' else c

/-- What a first line break and those after it come to: a single line feed becomes a
space, and of several the first is dropped. A separator stays. -/
def folded (first : Char) (breaks : Text) : Text :=
  if brokenBy first ≠ '\n' then brokenBy first :: breaks
  else if breaks.isEmpty then [' ']
  else breaks

/-! ### Places -/

/-- A place in a text: the characters from there on, their distance from the start, and
the line and column of the first. -/
structure Cursor where
  rest : Text
  index : Nat := 0
  line : Nat := 0
  column : Nat := 0
deriving DecidableEq, Repr

namespace Cursor

/-- Passes over a character. -/
def step (cursor : Cursor) : Cursor :=
  match cursor.rest with
  | [] => cursor
  | c :: rest =>
    if c = '\n' then
      { rest, index := cursor.index + 1, line := cursor.line + 1, column := 0 }
    else
      { rest, index := cursor.index + 1, line := cursor.line
        column := if c = byteOrderMark then cursor.column else cursor.column + 1 }

/-- Passes over so many characters. -/
def skip : Nat → Cursor → Cursor
  | 0, cursor => cursor
  | n + 1, cursor => skip n cursor.step

/-- Passes over characters of a kind. -/
def skipWhile (holds : Char → Bool) (cursor : Cursor) : Cursor :=
  cursor.skip (cursor.rest.takeWhile holds).length

/-- Goes on to where `rest` is left of the text. -/
def skipTo (cursor : Cursor) (rest : Text) : Cursor :=
  cursor.skip (cursor.rest.length - rest.length)

/-- Passes over spaces, comments and line breaks, and tells whether there was a line
break. Tabs are passed over only inside brackets. Each round takes a line break off the
text. -/
def gap (inBrackets : Bool) : (rounds : Nat) → (broken : Bool) → Cursor → Cursor × Bool
  | 0, broken, cursor => (cursor, broken)
  | rounds + 1, broken, cursor =>
    let start := cursor.skipWhile fun c => c = ' ' || (inBrackets && c = '\t')
    let stop := if start.rest.head? = some '#' then start.skipWhile (!isBreak ·) else start
    if stop.rest.head?.any isBreak then gap inBrackets rounds true stop.step else (stop, broken)

end Cursor

end TerraformTrace.Yaml
