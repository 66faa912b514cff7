import TerraformTrace.Json.Basic
import TerraformTrace.Text.Digit

/-!
# TerraformTrace.Json.Reader

Reading JSON. The grammar is strict, apart from the three number names `NaN`,
`Infinity` and `-Infinity`. A fault names what was expected and where; the place is
kept as the text from it on, and turned into a position only when it is reported.

Integers have a limit of 4300 digits. Going beyond it is a fault of its own kind,
because callers that recover from bad JSON do not recover from it.
-/

namespace TerraformTrace

namespace Json

/-! ### Faults -/

/-- What is wrong with a text. -/
inductive SyntaxFault
  | byteOrderMark
  | expectedValue
  | expectedKey
  | expectedColon
  | expectedComma
  | unterminatedString
  | controlCharacter
  | badEscape
  | badUnitEscape
  | extraData
deriving DecidableEq, Repr

/-- The wording of a fault. -/
def SyntaxFault.message : SyntaxFault → Text
  | .byteOrderMark => "Unexpected UTF-8 BOM (decode using utf-8-sig)".toList
  | .expectedValue => "Expecting value".toList
  | .expectedKey => "Expecting property name enclosed in double quotes".toList
  | .expectedColon => "Expecting ':' delimiter".toList
  | .expectedComma => "Expecting ',' delimiter".toList
  | .unterminatedString => "Unterminated string starting at".toList
  | .controlCharacter => "Invalid control character at".toList
  | .badEscape => "Invalid \\escape".toList
  | .badUnitEscape => "Invalid \\uXXXX escape".toList
  | .extraData => "Extra data".toList

/-- Why a text is not read. -/
inductive Fault
  /-- Bad syntax; `place` is the text from the place of the fault on. -/
  | bad (fault : SyntaxFault) (place : Text)
  | tooManyDigits (digits : Nat)
deriving DecidableEq, Repr

/-- The greatest number of digits of an integer. -/
def maxDigits : Nat := 4300

/-- The wording for too long an integer. -/
def tooManyDigitsMessage (digits : Nat) : Text :=
  "Exceeds the limit (4300 digits) for integer string conversion: value has ".toList ++
    Text.ofNat digits ++
    " digits; use sys.set_int_max_str_digits() to increase the limit".toList

/-- The full wording of a fault in a text, with its line, column and position. -/
def Fault.message (text : Text) : Fault → Text
  | .tooManyDigits digits => tooManyDigitsMessage digits
  | .bad fault place =>
    let pos := text.length - place.length
    let before := text.take pos
    let line := before.count '\n' + 1
    let column := (before.reverse.takeWhile (· ≠ '\n')).length + 1
    fault.message ++ ": line ".toList ++ Text.ofNat line ++ " column ".toList ++
      Text.ofNat column ++ " (char ".toList ++ Text.ofNat pos ++ [')']

/-! ### White space and words -/

/-- The four white-space characters of JSON. -/
def isSpace (c : Char) : Bool := c = ' ' || c = '\t' || c = '\n' || c = '\r'

/-- Passes over white space. -/
def skipSpace (text : Text) : Text := text.dropWhile isSpace

/-! ### Strings -/

/-- The value of four hexadecimal digits at the start of a text that goes on after
them. -/
def unit? : Text → Option (Nat × Text)
  | a :: b :: c :: d :: rest =>
    if rest.isEmpty then none
    else do
      let a ← Text.hexDigit? a
      let b ← Text.hexDigit? b
      let c ← Text.hexDigit? c
      let d ← Text.hexDigit? d
      return (((a * 16 + b) * 16 + c) * 16 + d, rest)
  | _ => none

/-- The code point of a UTF-16 unit that has no partner. -/
def runeOfUnit (unit : Nat) : Rune :=
  if h : unit - 0xD800 < 0x800 ∧ 0xD800 ≤ unit then .surrogate ⟨unit - 0xD800, h.1⟩
  else .char (Char.ofNat unit)

/-- A first half of a pair. -/
def isHighUnit (unit : Nat) : Bool := 0xD800 ≤ unit && unit < 0xDC00

/-- A second half of a pair. -/
def isLowUnit (unit : Nat) : Bool := 0xDC00 ≤ unit && unit < 0xE000

/-- The code point of a `\u` escape, from the text after the `u`. A high surrogate joins
the low one of an escape right after it. -/
def unitEscape? (place text : Text) : Except Fault (Rune × Text) :=
  match unit? text with
  | none => .error (.bad .badUnitEscape place)
  | some (unit, rest) =>
    match rest with
    | '\\' :: 'u' :: low =>
      if isHighUnit unit && 4 < low.length then
        match unit? low with
        | none => .error (.bad .badUnitEscape ('u' :: low))
        | some (second, after) =>
          if isLowUnit second then
            .ok (.char (Char.ofNat (0x10000 + (unit - 0xD800) * 0x400 + (second - 0xDC00))), after)
          else .ok (runeOfUnit unit, rest)
      else .ok (runeOfUnit unit, rest)
    | _ => .ok (runeOfUnit unit, rest)

/-- What a one-letter escape stands for. -/
def escape? (c : Char) : Option Char :=
  if c = '"' || c = '\\' || c = '/' then some c
  else if c = 'b' then some '\x08'
  else if c = 'f' then some '\x0c'
  else if c = 'n' then some '\n'
  else if c = 'r' then some '\r'
  else if c = 't' then some '\t'
  else none

/-- One code point of a string from a non-empty text that does not start with a quote.
`opening` is the text from the string's opening quote on. -/
def rune (opening : Text) : Text → Except Fault (Rune × Text)
  | '\\' :: 'u' :: rest => unitEscape? ('u' :: rest) rest
  | ['\\'] => .error (.bad .unterminatedString opening)
  | '\\' :: c :: rest =>
    match escape? c with
    | some value => .ok (.char value, rest)
    | none => .error (.bad .badEscape ('\\' :: c :: rest))
  | c :: rest =>
    if c.toNat < 0x20 then .error (.bad .controlCharacter (c :: rest)) else .ok (.char c, rest)
  | [] => .error (.bad .unterminatedString opening)

/-- The code points of a string up to its closing quote, from the text after the opening
quote. Each round takes a character off the text, so its length bounds the rounds. -/
def runes (opening : Text) : (rounds : Nat) → Text → Except Fault (Runes × Text)
  | _, '"' :: rest => .ok ([], rest)
  | 0, _ => .error (.bad .unterminatedString opening)
  | rounds + 1, text => do
    let (first, rest) ← rune opening text
    let (more, rest) ← runes opening rounds rest
    return (first :: more, rest)

/-- A string, from the text after its opening quote. -/
def readString (text : Text) : Except Fault (Runes × Text) :=
  runes ('"' :: text) text.length text

/-! ### Numbers -/

/-- The digits a text starts with, and the rest. -/
def digitRun (text : Text) : Text × Text := text.span Char.isDigit

/-- The digits of a fraction at the start of a text, and the rest: a point with at least
one digit after it. -/
def fraction : Text → Text × Text
  | '.' :: rest =>
    match digitRun rest with
    | ([], _) => ([], '.' :: rest)
    | (digits, after) => (digits, after)
  | text => ([], text)

/-- The exponent at the start of a text, and the rest: `e` or `E`, an optional sign and
at least one digit. -/
def exponent (text : Text) : Option Int × Text :=
  match text with
  | e :: rest =>
    if e = 'e' || e = 'E' then
      let (negative, unsigned) :=
        match rest with
        | '-' :: r => (true, r)
        | '+' :: r => (false, r)
        | r => (false, r)
      match digitRun unsigned with
      | ([], _) => (none, text)
      | (digits, after) =>
        let value : Int := Text.digitsValue digits
        (some (if negative then -value else value), after)
    else (none, text)
  | [] => (none, text)

/-- An integer of at most 4300 digits. -/
def integer (negative : Bool) (digits : Text) : Except Fault Json :=
  if maxDigits < digits.length then .error (.tooManyDigits digits.length)
  else
    let value : Int := Text.digitsValue digits
    .ok (.int (if negative then -value else value))

/-- A number, from the text after its sign: an integer if it has neither fraction nor
exponent. -/
def readNumber (negative : Bool) (place text : Text) : Except Fault (Json × Text) :=
  let (whole, rest) :=
    match text with
    | '0' :: rest => (['0'], rest)
    | _ => digitRun text
  if whole.isEmpty then .error (.bad .expectedValue place)
  else
    let (decimals, rest) := fraction rest
    let (power, rest) := exponent rest
    if decimals.isEmpty && power.isNone then do
      let value ← integer negative whole
      return (value, rest)
    else
      let value := Binary64.ofDecimal negative (Text.digitsValue (whole ++ decimals))
        (power.getD 0 - decimals.length)
      .ok (.float value, rest)

/-! ### Values -/

/-- The values that are written as a word. -/
def words : List (Text × Json) :=
  [("null".toList, .null), ("true".toList, .bool true), ("false".toList, .bool false),
    ("NaN".toList, .float .nan), ("Infinity".toList, .float (.infinity false)),
    ("-Infinity".toList, .float (.infinity true))]

/-- Reads a word or a number. -/
def readScalar (text : Text) : Except Fault (Json × Text) :=
  match words.find? fun word => word.1.isPrefixOf text with
  | some (word, value) => .ok (value, text.drop word.length)
  | none =>
    match text with
    | '-' :: rest => readNumber true text rest
    | _ => readNumber false text text

mutual

/-- A value. Each level of nesting takes two rounds and a character off the text, so
twice its length bounds the rounds. -/
def readValue : (rounds : Nat) → Text → Except Fault (Json × Text)
  | 0, text => .error (.bad .expectedValue text)
  | rounds + 1, text =>
    match text with
    | '"' :: rest => do
      let (value, rest) ← readString rest
      return (.string value, rest)
    | '{' :: rest =>
      match skipSpace rest with
      | '}' :: rest => .ok (.object [], rest)
      | rest => do
        let (fields, rest) ← readFields rounds rest
        return (.object (collect fields), rest)
    | '[' :: rest =>
      match skipSpace rest with
      | ']' :: rest => .ok (.array [], rest)
      | rest => do
        let (items, rest) ← readItems rounds rest
        return (.array items, rest)
    | _ => readScalar text

/-- The fields of an object up to its closing brace. -/
def readFields : (rounds : Nat) → Text → Except Fault (List (Runes × Json) × Text)
  | 0, text => .error (.bad .expectedKey text)
  | rounds + 1, text =>
    match text with
    | '"' :: rest => do
      let (key, rest) ← readString rest
      match skipSpace rest with
      | ':' :: rest => do
        let (value, rest) ← readValue rounds (skipSpace rest)
        match skipSpace rest with
        | '}' :: rest => return ([(key, value)], rest)
        | ',' :: rest => do
          let (fields, rest) ← readFields rounds (skipSpace rest)
          return ((key, value) :: fields, rest)
        | rest => .error (.bad .expectedComma rest)
      | rest => .error (.bad .expectedColon rest)
    | _ => .error (.bad .expectedKey text)

/-- The items of an array up to its closing bracket. -/
def readItems : (rounds : Nat) → Text → Except Fault (List Json × Text)
  | 0, text => .error (.bad .expectedValue text)
  | rounds + 1, text => do
    let (value, rest) ← readValue rounds text
    match skipSpace rest with
    | ']' :: rest => return ([value], rest)
    | ',' :: rest => do
      let (items, rest) ← readItems rounds (skipSpace rest)
      return (value :: items, rest)
    | rest => .error (.bad .expectedComma rest)

end

/-- Reads a whole text as one value. -/
def read (text : Text) : Except Fault Json :=
  if text.head? = some '\uFEFF' then .error (.bad .byteOrderMark text)
  else do
    let (value, rest) ← readValue (2 * text.length + 1) (skipSpace text)
    match skipSpace rest with
    | [] => return value
    | rest => .error (.bad .extraData rest)

end Json

end TerraformTrace
