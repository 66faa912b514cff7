import TerraformTrace.Yaml.Cursor

/-!
# TerraformTrace.Yaml.Plain

The texts of plain scalars. A plain scalar goes on over single spaces and line breaks,
in block context as long as its lines are indented; a colon before a blank, a comment,
a tab and, inside brackets, a bracket or a comma end it.
-/

namespace TerraformTrace.Yaml

/-- A character that has a meaning of its own inside brackets. -/
def isBracketMark (c : Char) : Bool := c = ',' || c = '[' || c = ']' || c = '{' || c = '}'

/-- A character that starts something other than a plain scalar. -/
def isIndicator (c : Char) : Bool :=
  isBracketMark c ||
    ['-', '?', ':', '#', '&', '*', '!', '|', '>', '\'', '"', '%', '@', '\x60'].contains c

/-- Whether a plain scalar starts here. -/
def startsPlain (inBrackets : Bool) : Text → Bool
  | [] => false
  | c :: rest =>
    if c = '-' then !atWordEnd rest
    else if c = ':' then
      if inBrackets then !rest.head?.any isSpace else !atWordEnd rest
    else if c = '?' then !inBrackets && !atWordEnd rest
    else !isIndicator c && !endsWord c

/-- The characters of a plain scalar up to a blank or its end. -/
def plainWord (inBrackets : Bool) : Text → Text
  | [] => []
  | c :: rest =>
    if endsWord c || (inBrackets && isBracketMark c) || (c = ':' && atWordEnd rest) then []
    else c :: plainWord inBrackets rest

/-- What stands between two words of a plain scalar. -/
structure PlainGap where
  /-- What it comes to in the text of the scalar; nothing if the scalar ends here. -/
  text : Text
  after : Cursor
  broken : Bool
deriving DecidableEq, Repr

/-- The further line breaks and the spaces between them, up to the next word. None if a
document starts or ends there. Each round takes a character off the text. -/
def plainBreaks : (rounds : Nat) → (breaks : Text) → Cursor → Option Text × Cursor
  | 0, breaks, cursor => (some breaks, cursor)
  | rounds + 1, breaks, cursor =>
    match cursor.rest with
    | [] => (some breaks, cursor)
    | c :: rest =>
      if c = ' ' then plainBreaks rounds breaks cursor.step
      else if isBreak c then
        if startsMarker rest then (none, cursor.step)
        else plainBreaks rounds (breaks ++ [brokenBy c]) cursor.step
      else (some breaks, cursor)

/-- What stands after a word of a plain scalar. -/
def plainGap (cursor : Cursor) : PlainGap :=
  let after := cursor.skipWhile (· = ' ')
  match after.rest with
  | [] => ⟨cursor.rest, after, false⟩
  | c :: rest =>
    if isBreak c then
      if startsMarker rest then ⟨[], after.step, true⟩
      else
        match plainBreaks rest.length [] after.step with
        | (none, after) => ⟨[], after, true⟩
        | (some breaks, after) => ⟨folded c breaks, after, true⟩
    else ⟨cursor.rest.takeWhile (· = ' '), after, false⟩

/-- The text of a plain scalar, the place after it and the blanks that follow, and
whether those have a line break in them. Lines in block context stand right of
`indent`. Each round takes a word off the text. -/
def plainText (inBrackets : Bool) (indent : Int) : (rounds : Nat) → Cursor → Text × Cursor × Bool
  | 0, cursor => ([], cursor, false)
  | rounds + 1, cursor =>
    let word := plainWord inBrackets cursor.rest
    let gap := plainGap (cursor.skip word.length)
    let ends := gap.text.isEmpty || gap.after.rest.head? = some '#' ||
      (!inBrackets && gap.after.column ≤ indent) ||
      (plainWord inBrackets gap.after.rest).isEmpty
    if ends then (word, gap.after, gap.broken)
    else
      let (more, after, broken) := plainText inBrackets indent rounds gap.after
      (word ++ gap.text ++ more, after, broken)

end TerraformTrace.Yaml
