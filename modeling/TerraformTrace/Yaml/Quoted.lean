import TerraformTrace.Text.Digit
import TerraformTrace.Yaml.Cursor

/-!
# TerraformTrace.Yaml.Quoted

The texts of quoted scalars. Lines are folded: blanks around a line break vanish, a
single break becomes a space and further breaks stay. Between single quotes a quote is
written twice; between double quotes a backslash starts an escape, and one at the end
of a line joins the next line without a space. A line inside a scalar cannot start as
a document does.
-/

namespace TerraformTrace.Yaml

/-- The line breaks at the start of a text and the blanks between them, and the text
after them. Each round takes a line break off the text. -/
def lineBreaks? : (rounds : Nat) → Text → Option (Text × Text)
  | 0, _ => none
  | rounds + 1, text =>
    if startsMarker text then none
    else
      match text.dropWhile isSpace with
      | [] => some ([], [])
      | c :: rest =>
        if isBreak c then
          (lineBreaks? rounds rest).map fun found => (brokenBy c :: found.1, found.2)
        else some ([], c :: rest)

/-- What a one-letter escape stands for. -/
def escape? (c : Char) : Option Char :=
  [('0', '\x00'), ('a', '\x07'), ('b', '\x08'), ('t', '\t'), ('\t', '\t'), ('n', '\n'),
    ('v', '\x0b'), ('f', '\x0c'), ('r', '\r'), ('e', '\x1b'), (' ', ' '), ('"', '"'),
    ('\\', '\\'), ('/', '/'), ('N', '\u0085'), ('_', '\u00a0'), ('L', '\u2028'),
    ('P', '\u2029')].lookup c

/-- Number of digits of a numeric escape. -/
def escapeWidth? (c : Char) : Option Nat := [('x', 2), ('u', 4), ('U', 8)].lookup c

/-- The character whose code is written in hexadecimal digits. -/
def charOfDigits? (digits : Text) : Option Char := do
  let values ← digits.mapM Text.hexDigit?
  let code := values.foldl (fun code digit => code * 16 + digit) 0
  if code.isValidChar then some (Char.ofNat code) else none

/-- What an escape stands for, from after its backslash, and the text after it. -/
def escaped? : Text → Option (Text × Text)
  | [] => none
  | c :: rest =>
    match escape? c, escapeWidth? c with
    | some value, _ => some ([value], rest)
    | none, some width =>
      if rest.length < width then none
      else (charOfDigits? (rest.take width)).map fun value => ([value], rest.drop width)
    | none, none => if isBreak c then lineBreaks? (rest.length + 1) rest else none

/-- The text of a scalar between quotes, from after the opening one, and the text after
the closing one. Each round takes a character off the text. -/
def quotedText? (quote : Char) : (rounds : Nat) → Text → Option (Text × Text)
  | 0, _ => none
  | rounds + 1, text =>
    let onward (part rest : Text) : Option (Text × Text) :=
      (quotedText? quote rounds rest).map fun found => (part ++ found.1, found.2)
    match text with
    | [] => none
    | c :: rest =>
      if c = quote then
        if quote = '\'' && rest.head? = some '\'' then onward ['\''] rest.tail
        else some ([], rest)
      else if c = '\\' && quote = '"' then do
        let (part, rest) ← escaped? rest
        onward part rest
      else
        let blanks := text.takeWhile isSpace
        match text.drop blanks.length with
        | [] => none
        | d :: after =>
          if isBreak d then do
            let (breaks, rest) ← lineBreaks? (after.length + 1) after
            onward (folded d breaks) rest
          else if blanks.isEmpty then onward [c] rest
          else onward blanks (d :: after)

end TerraformTrace.Yaml
