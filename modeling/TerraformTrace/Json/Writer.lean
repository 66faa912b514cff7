import TerraformTrace.Json.Basic
import TerraformTrace.Text.Digit

/-!
# TerraformTrace.Json.Writer

JSON values as text, on one line or with one item per line. Strings are written in
ASCII: everything else is escaped, characters beyond U+FFFF as a surrogate pair. A
second string form, for keys that are searched for path names, escapes only what JSON
demands and keeps every other character.
-/

namespace TerraformTrace

namespace Json

/-! ### Strings -/

/-- The escape of one UTF-16 unit. -/
def unitEscape (unit : Nat) : Text := '\\' :: 'u' :: Text.hexDigits 4 unit

/-- The short escape of a character. -/
def shortEscape? (c : Char) : Option Text :=
  if c = '"' then some ['\\', '"']
  else if c = '\\' then some ['\\', '\\']
  else if c = '\n' then some ['\\', 'n']
  else if c = '\r' then some ['\\', 'r']
  else if c = '\t' then some ['\\', 't']
  else if c = '\x0c' then some ['\\', 'f']
  else if c = '\x08' then some ['\\', 'b']
  else none

/-- A code point in ASCII. -/
def writeRune : Rune → Text
  | .surrogate offset => unitEscape (0xD800 + offset.val)
  | .char c =>
    match shortEscape? c with
    | some escape => escape
    | none =>
      let n := c.toNat
      if 0x20 ≤ n && n < 0x7F then [c]
      else if n < 0x10000 then unitEscape n
      else
        unitEscape (0xD800 + (n - 0x10000) / 0x400) ++ unitEscape (0xDC00 + (n - 0x10000) % 0x400)

/-- A string in ASCII. -/
def writeString (runes : Runes) : Text := '"' :: runes.flatMap writeRune ++ ['"']

/-- A character with only controls, quotes and backslashes escaped. -/
def writeRawChar (c : Char) : Text :=
  match shortEscape? c with
  | some escape => escape
  | none => if c.toNat < 0x20 then unitEscape c.toNat else [c]

/-- A string in which only controls, quotes and backslashes are escaped. -/
def writeRawString (text : Text) : Text := '"' :: text.flatMap writeRawChar ++ ['"']

/-! ### Values -/

/-- The layout of numbers: that of plain text, with the JSON-style names of the values
that are not numbers. -/
def numberLayout : Binary64.Layout :=
  { Binary64.plain with nan := "NaN".toList, infinity := "Infinity".toList }

/-- How the items of an array or object are separated. -/
structure Style where
  /-- Before the first item, at a depth of nesting. -/
  opening : Nat → Text
  between : Nat → Text
  closing : Nat → Text

/-- All items on one line. -/
def compact : Style :=
  { opening := fun _ => [], between := fun _ => ", ".toList, closing := fun _ => [] }

/-- A line break and the indentation of a depth. -/
def newLine (depth : Nat) : Text := '\n' :: List.replicate (2 * depth) ' '

/-- One item per line, indented by two spaces for each level. -/
def indented : Style :=
  { opening := fun depth => newLine (depth + 1)
    between := fun depth => ',' :: newLine (depth + 1)
    closing := newLine }

mutual

/-- Writes a value at a depth of nesting. -/
def writeAt (style : Style) (depth : Nat) : Json → Text
  | .null => "null".toList
  | .bool value => if value then "true".toList else "false".toList
  | .int value => Text.ofInt value
  | .float value => value.write numberLayout
  | .string value => writeString value
  | .array [] => "[]".toList
  | .array (item :: items) =>
    '[' :: style.opening depth ++ writeAt style (depth + 1) item ++
      writeItems style depth items ++ style.closing depth ++ [']']
  | .object [] => "\x7b\x7d".toList
  | .object ((key, value) :: fields) =>
    '{' :: style.opening depth ++ writeString key ++ ": ".toList ++
      writeAt style (depth + 1) value ++ writeFields style depth fields ++
      style.closing depth ++ ['}']

/-- Writes the items after the first. -/
def writeItems (style : Style) (depth : Nat) : List Json → Text
  | [] => []
  | item :: items =>
    style.between depth ++ writeAt style (depth + 1) item ++ writeItems style depth items

/-- Writes the fields after the first. -/
def writeFields (style : Style) (depth : Nat) : List (Runes × Json) → Text
  | [] => []
  | (key, value) :: fields =>
    style.between depth ++ writeString key ++ ": ".toList ++ writeAt style (depth + 1) value ++
      writeFields style depth fields

end

/-- A value on one line. -/
def write (value : Json) : Text := writeAt compact 0 value

/-- A value with one item per line. -/
def writeIndented (value : Json) : Text := writeAt indented 0 value

end Json

end TerraformTrace
