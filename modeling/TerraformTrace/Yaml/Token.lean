import TerraformTrace.Yaml.Plain
import TerraformTrace.Yaml.Quoted

/-!
# TerraformTrace.Yaml.Token

The tokens of a YAML text. Besides the marks that are written there are tokens for what
is told by columns: where a block collection starts and ends.

Whether a scalar or a bracket starts a key shows only when a colon follows, and then the
tokens of the key and of the block that it opens are put in before it. Such a *possible
key* has to end on its line and within 1024 characters; where the column asks for a key,
one that does not is an error.

Anchors, aliases, tags, directives and block scalars are not read.
-/

namespace TerraformTrace.Yaml

/-- The smallest parts of a document. -/
inductive Token
  | documentStart
  | documentEnd
  | sequenceStart
  | mappingStart
  | blockEnd
  /-- An item of a block sequence follows. -/
  | entry
  | key
  | value
  | listOpen
  | listClose
  | mapOpen
  | mapClose
  | comma
  | scalar (text : Text) (plain : Bool)
deriving DecidableEq, Repr

/-- What has been opened and not yet closed. -/
inductive Bracket
  | square
  | curly
deriving DecidableEq, Repr

/-- A token that starts a key if a colon follows. -/
structure PossibleKey where
  /-- Number of tokens before it. -/
  position : Nat
  /-- Whether there has to be a key. -/
  required : Bool
  index : Nat
  line : Nat
  column : Nat
deriving DecidableEq, Repr

/-- The greatest number of characters from the start of a key to its colon. -/
def maxKeyLength : Nat := 1024

/-- What has been read, and how far. -/
structure Reading where
  cursor : Cursor
  /-- The tokens so far, latest first. -/
  tokens : List Token := []
  /-- The column of the innermost block collection. -/
  indent : Int := -1
  /-- The columns of those around it, innermost first. -/
  indents : List Int := []
  /-- The open brackets, innermost first, each with the possible key before it. -/
  brackets : List (Bracket × Option PossibleKey) := []
  /-- The possible key inside the innermost bracket. -/
  possibleKey : Option PossibleKey := none
  /-- Whether a key can start here. -/
  keyAllowed : Bool := true
  /-- The line of an end of a document that was read last. -/
  endLine : Option Nat := none
deriving DecidableEq, Repr

namespace Reading

/-- Whether a bracket is open. -/
def inBrackets (reading : Reading) : Bool := !reading.brackets.isEmpty

/-! ### Possible keys -/

/-- A possible key as it is at a place: forgotten when it is too far back. None if there
had to be a key. -/
def stillPossible? (cursor : Cursor) : Option PossibleKey → Option (Option PossibleKey)
  | none => some none
  | some key =>
    if key.line ≠ cursor.line || maxKeyLength < cursor.index - key.index then
      if key.required then none else some none
    else some (some key)

/-- Forgets the possible keys that are too far back. -/
def dropStale? (reading : Reading) : Option Reading := do
  let possibleKey ← stillPossible? reading.cursor reading.possibleKey
  let brackets ← reading.brackets.mapM fun bracket => do
    let key ← stillPossible? reading.cursor bracket.2
    return (bracket.1, key)
  return { reading with possibleKey, brackets }

/-- Whether a possible key is open, inside any bracket. -/
def isPending (reading : Reading) : Bool :=
  reading.possibleKey.isSome || reading.brackets.any (·.2.isSome)

/-- Forgets the possible key inside the innermost bracket. None if there had to be a
key. -/
def forgetKey? (reading : Reading) : Option Reading :=
  if reading.possibleKey.any (·.required) then none
  else some { reading with possibleKey := none }

/-- Notes that a key may start here. -/
def noteKey? (reading : Reading) : Option Reading := do
  if !reading.keyAllowed then return reading
  let reading ← reading.forgetKey?
  let cursor := reading.cursor
  return { reading with
    possibleKey := some
      { position := reading.tokens.length
        required := !reading.inBrackets && reading.indent = cursor.column
        index := cursor.index, line := cursor.line, column := cursor.column } }

/-! ### Blocks -/

/-- Ends the block collections that stand right of a column, innermost first. -/
def closeBlocks (column indent : Int) (tokens : List Token) :
    List Int → Int × List Int × List Token
  | [] => (indent, [], tokens)
  | outer :: indents =>
    if column < indent then closeBlocks column outer (.blockEnd :: tokens) indents
    else (indent, outer :: indents, tokens)

/-- Ends the block collections that stand right of a column. Inside brackets columns do
not matter. -/
def unwind (column : Int) (reading : Reading) : Reading :=
  if reading.inBrackets then reading
  else
    let (indent, indents, tokens) :=
      closeBlocks column reading.indent reading.tokens reading.indents
    { reading with indent, indents, tokens }

/-- Puts a token in where `pos` tokens stand before it. -/
def insert (pos : Nat) (token : Token) (tokens : List Token) : List Token :=
  let later := tokens.length - pos
  tokens.take later ++ token :: tokens.drop later

/-- Opens a block collection at a column, unless one stands there already. -/
def openBlock (start : Token) (column pos : Nat) (reading : Reading) : Reading :=
  if reading.indent < column then
    { reading with
      indent := column
      indents := reading.indent :: reading.indents
      tokens := insert pos start reading.tokens }
  else reading

/-- Opens a block collection at this place. -/
def openBlockHere (start : Token) (reading : Reading) : Reading :=
  reading.openBlock start reading.cursor.column reading.tokens.length

/-! ### Tokens -/

/-- Takes a token of some length. -/
def take (length : Nat) (token : Token) (reading : Reading) : Reading :=
  { reading with cursor := reading.cursor.skip length, tokens := token :: reading.tokens }

/-- Reads the start or the end of a document. No key can follow on the line. -/
def takeMarker? (token : Token) (reading : Reading) : Option Reading := do
  let reading ← (reading.unwind (-1)).forgetKey?
  return { reading with keyAllowed := false }.take 3 token

/-- Reads an opening bracket. -/
def takeOpening? (bracket : Bracket) (token : Token) (reading : Reading) : Option Reading := do
  let reading ← reading.noteKey?
  return { reading with
    brackets := (bracket, reading.possibleKey) :: reading.brackets
    possibleKey := none
    keyAllowed := true }.take 1 token

/-- Reads a closing bracket. None if no bracket is open. -/
def takeClosing? (token : Token) (reading : Reading) : Option Reading :=
  match reading.brackets with
  | [] => none
  | (_, possibleKey) :: brackets =>
    some ({ reading with brackets, possibleKey, keyAllowed := false }.take 1 token)

/-- Reads a comma. -/
def takeComma? (reading : Reading) : Option Reading := do
  let reading ← reading.forgetKey?
  return { reading with keyAllowed := true }.take 1 .comma

/-- Opens the block collection that a mark belongs to. Inside brackets there is none;
elsewhere the mark has to stand where a key can. -/
def openFor? (start : Token) (reading : Reading) : Option Reading :=
  if reading.inBrackets then some reading
  else if reading.keyAllowed then some (reading.openBlockHere start)
  else none

/-- Reads the mark of an item of a block sequence. -/
def takeEntry? (reading : Reading) : Option Reading := do
  let reading ← reading.openFor? .sequenceStart
  let reading ← reading.forgetKey?
  return { reading with keyAllowed := true }.take 1 .entry

/-- Reads the mark of a key. -/
def takeKey? (reading : Reading) : Option Reading := do
  let reading ← reading.openFor? .mappingStart
  let reading ← reading.forgetKey?
  return { reading with keyAllowed := !reading.inBrackets }.take 1 .key

/-- Reads the colon before a value. What was a possible key is one. -/
def takeValue? (reading : Reading) : Option Reading :=
  match reading.possibleKey with
  | some key =>
    let reading :=
      { reading with
        possibleKey := none
        keyAllowed := false
        tokens := insert key.position .key reading.tokens }
    let reading :=
      if reading.inBrackets then reading
      else reading.openBlock .mappingStart key.column key.position
    some (reading.take 1 .value)
  | none => do
    let reading ← reading.openFor? .mappingStart
    return { reading with keyAllowed := !reading.inBrackets }.take 1 .value

/-- Reads a quoted scalar. -/
def takeQuoted? (quote : Char) (reading : Reading) : Option Reading := do
  let reading ← reading.noteKey?
  let text := reading.cursor.rest.tail
  let (scalar, rest) ← quotedText? quote (text.length + 1) text
  return { reading with
    cursor := reading.cursor.skipTo rest
    tokens := .scalar scalar false :: reading.tokens
    keyAllowed := false }

/-- Reads a plain scalar. After one that ends with its line a key can start. -/
def takePlain? (reading : Reading) : Option Reading := do
  let reading ← reading.noteKey?
  let cursor := reading.cursor
  let (scalar, after, broken) :=
    plainText reading.inBrackets reading.indent cursor.rest.length cursor
  return { reading with
    cursor := after
    tokens := .scalar scalar true :: reading.tokens
    keyAllowed := broken }

/-- Whether a colon here stands before a value. Between square brackets, and right after
the colon of another value whose key may still be part of a key, a blank has to follow. -/
def isValueMark (reading : Reading) (pending : Bool) (after : Text) : Bool :=
  match reading.brackets with
  | [] => atWordEnd after
  | (.square, _) :: _ => atWordEnd after
  | (.curly, _) :: _ => !(pending && reading.tokens.head? = some .value) || atWordEnd after

/-- Reads the token at the cursor. `pending` tells whether a possible key was open after
the token before. -/
def takeNext? (reading : Reading) (pending : Bool) : Option Reading :=
  let text := reading.cursor.rest
  let atMargin := reading.cursor.column = 0
  if atMargin && isMarker '-' text then reading.takeMarker? .documentStart
  else if atMargin && isMarker '.' text then
    (reading.takeMarker? .documentEnd).map fun next =>
      { next with endLine := some reading.cursor.line }
  else
    match text with
    | [] => none
    | '[' :: _ => reading.takeOpening? .square .listOpen
    | '{' :: _ => reading.takeOpening? .curly .mapOpen
    | ']' :: _ => reading.takeClosing? .listClose
    | '}' :: _ => reading.takeClosing? .mapClose
    | ',' :: _ => reading.takeComma?
    | '\'' :: _ => reading.takeQuoted? '\''
    | '"' :: _ => reading.takeQuoted? '"'
    | c :: rest =>
      if c = '-' && atWordEnd rest then reading.takeEntry?
      else if c = '?' && (reading.inBrackets || atWordEnd rest) then reading.takeKey?
      else if c = ':' && reading.isValueMark pending rest then reading.takeValue?
      else if startsPlain reading.inBrackets text then reading.takePlain?
      else none

/-- Goes on to the next token, and ends the blocks that it stands outside of. -/
def advance? (reading : Reading) : Option Reading := do
  let (cursor, broken) :=
    reading.cursor.gap reading.inBrackets (reading.cursor.rest.length + 1) false
  let keyAllowed := reading.keyAllowed || (broken && !reading.inBrackets)
  let reading ← { reading with cursor, keyAllowed }.dropStale?
  return reading.unwind reading.cursor.column

/-- Reads the remaining tokens. After the end of a document nothing else stands on the
line. Each round takes a character off the text. -/
def finish? : (rounds : Nat) → Reading → Option (List Token)
  | 0, _ => none
  | rounds + 1, reading => do
    let reading ← reading.dropStale?
    let pending := reading.isPending
    let reading ← reading.advance?
    if reading.cursor.rest.isEmpty then
      let reading ← (reading.unwind (-1)).forgetKey?
      return reading.tokens.reverse
    else if reading.endLine = some reading.cursor.line then none
    else
      let reading ← { reading with endLine := none }.takeNext? pending
      finish? rounds reading

end Reading

/-- The tokens of a text. A byte order mark at its start is passed over. -/
def tokens? (text : Text) : Option (List Token) :=
  if text.all isAllowed then
    let start : Cursor := { rest := text }
    let cursor := if text.head? = some byteOrderMark then start.step else start
    Reading.finish? (text.length + 1) { cursor }
  else none

end TerraformTrace.Yaml
