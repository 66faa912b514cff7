import TerraformTrace.Text.Basic

/-!
# TerraformTrace.Text.Blank

White space. A blank is a character of the Unicode white-space property or one of
the four information separators; trimming removes blanks at the ends of a text.

Two narrower classes are used where the configuration language itself separates
tokens: `isGap` for the blanks inside a line, and the line break.
-/

namespace TerraformTrace.Text

/-- White space in the widest sense. The zero-width space and the byte order mark
are not blank. -/
def isBlank (c : Char) : Bool :=
  let n := c.toNat
  (0x09 ≤ n && n ≤ 0x0D) || (0x1C ≤ n && n ≤ 0x20) || n = 0x85 || n = 0xA0 || n = 0x1680 ||
    (0x2000 ≤ n && n ≤ 0x200A) || n = 0x2028 || n = 0x2029 || n = 0x202F || n = 0x205F ||
    n = 0x3000

/-- A space or a tab. -/
def isGap (c : Char) : Bool := c = ' ' || c = '\t'

/-- A space, a tab or a carriage return: what may stand before a statement on its
line. -/
def isIndent (c : Char) : Bool := c = ' ' || c = '\t' || c = '\r'

/-- Drops blanks in front. -/
def stripLeft (text : Text) : Text := text.dropWhile isBlank

/-- Drops characters at the end. -/
def dropRightWhile (p : Char → Bool) (text : Text) : Text := (text.reverse.dropWhile p).reverse

/-- Drops blanks at the end. -/
def stripRight (text : Text) : Text := dropRightWhile isBlank text

/-- Drops blanks on both sides. -/
def strip (text : Text) : Text := stripRight (stripLeft text)

theorem length_dropRightWhile_le (p : Char → Bool) (text : Text) :
    (dropRightWhile p text).length ≤ text.length := by
  simpa [dropRightWhile] using (List.dropWhile_suffix (l := text.reverse) p).length_le

theorem length_stripLeft_le (text : Text) : (stripLeft text).length ≤ text.length :=
  (List.dropWhile_suffix isBlank).length_le

theorem length_stripRight_le (text : Text) : (stripRight text).length ≤ text.length :=
  length_dropRightWhile_le isBlank text

theorem length_strip_le (text : Text) : (strip text).length ≤ text.length :=
  Nat.le_trans (length_stripRight_le _) (length_stripLeft_le _)

end TerraformTrace.Text
