import TerraformTrace.Hcl.Measure
import TerraformTrace.Json.Reader
import TerraformTrace.Json.Writer
import TerraformTrace.Report

/-!
# TerraformTrace.Literal

Values as structured data. A resolved value is plain text; it is taken apart only to
look a variable up in a JSON document, to take a property of an object, and to display
it. A configuration literal (object, list, quoted string, number, `true`, `false`,
`null`) becomes a JSON value by recursion on the texts of its fields and items, which
are shorter than the literal itself.
-/

namespace TerraformTrace

open Text Hcl

/-- Why a text is not the literal it should be. -/
inductive LiteralError
  /-- Between the braces stands something, but no field. -/
  | noFields (literal : Text)
  /-- Neither object nor list, string, number, truth value or `null`. -/
  | notLiteral (literal : Text)
  | badDocument (fault : Json.SyntaxFault) (document : Text)
  | notObject (document : Text)
  | tooManyDigits (digits : Nat)
deriving DecidableEq, Repr

/-- The report of a malformed literal. An integer that is too long is not reported as
one. -/
def LiteralError.report? : LiteralError → Option (Report Text)
  | .noFields literal =>
    some (.malformedLiteral "Object literal has no fields".toList (some literal))
  | .notLiteral literal => some (.malformedLiteral "Not a literal value".toList (some literal))
  | .badDocument fault document =>
    some (.malformedLiteral ("Invalid JSON document: ".toList ++ fault.message) (some document))
  | .notObject document =>
    some (.malformedLiteral "JSON variables document must be an object".toList (some document))
  | .tooManyDigits _ => none

namespace Literal

/-! ### JSON documents -/

/-- A JSON value as literal text: arrays and objects over several lines, everything else
on one. -/
def format : Json → Text
  | .array items => Json.writeIndented (.array items)
  | .object fields => Json.writeIndented (.object fields)
  | value => Json.write value

/-- The literal text of a variable in a JSON document, if the document assigns it. -/
def jsonVariable? (document name : Text) : Except LiteralError (Option Text) :=
  match Json.read document with
  | .error (.bad fault _) => .error (.badDocument fault document)
  | .error (.tooManyDigits digits) => .error (.tooManyDigits digits)
  | .ok (.object fields) => .ok ((fields.lookup (Runes.ofText name)).map format)
  | .ok _ => .error (.notObject document)

/-! ### Configuration literals -/

/-- Whether a text starts with one character and ends with another. -/
def isBetween (opening closing : Char) (text : Text) : Bool :=
  text.head? = some opening && text.getLast? = some closing

/-- A number: its sign, the digits before and after the point, and the exponent if
there is one. -/
structure Numeral where
  negative : Bool
  whole : Text
  decimals : Text
  power : Option Int
deriving DecidableEq, Repr

/-- Reads a sign, if there is one of the given ones. -/
def sign (plus : Bool) : Text → Bool × Text
  | '-' :: rest => (true, rest)
  | '+' :: rest => if plus then (false, rest) else (false, '+' :: rest)
  | text => (false, text)

/-- Reads the fraction after the whole digits, if there is one. -/
def fraction? : Text → Option (Text × Text)
  | '.' :: rest =>
    match rest.span isDecimal with
    | ([], _) => none
    | (digits, rest) => some (digits, rest)
  | text => some ([], text)

/-- Reads the exponent that ends a number, if there is one. -/
def exponent? : Text → Option (Option Int)
  | [] => some none
  | e :: rest =>
    if e = 'e' || e = 'E' then
      let (negative, digits) := sign true rest
      if digits.isEmpty || !digits.all isDecimal then none
      else
        let value : Int := digitsValue digits
        some (some (if negative then -value else value))
    else none

/-- Reads a whole text as a number: an optional minus, digits, optionally a point and
digits, optionally an exponent. Digits of every script count. -/
def numeral? (text : Text) : Option Numeral :=
  let (negative, rest) := sign false text
  match rest.span isDecimal with
  | ([], _) => none
  | (whole, rest) => do
    let (decimals, rest) ← fraction? rest
    let power ← exponent? rest
    return { negative, whole, decimals, power }

/-- The value of a number: an integer if it has neither fraction nor exponent. -/
def Numeral.value (numeral : Numeral) : Except LiteralError Json :=
  if numeral.decimals.isEmpty && numeral.power.isNone then
    match Json.integer numeral.negative numeral.whole with
    | .ok value => .ok value
    | .error (.tooManyDigits digits) => .error (.tooManyDigits digits)
    | .error (.bad _ place) => .error (.notLiteral place)
  else
    .ok (.float (Binary64.ofDecimal numeral.negative
      (digitsValue (numeral.whole ++ numeral.decimals))
      (numeral.power.getD 0 - numeral.decimals.length)))

/-- A literal without parts. A quoted string that is not a JSON string stands for the
text between its quotes. -/
def scalar (literal : Text) : Except LiteralError Json :=
  if isBetween '"' '"' literal && 2 ≤ literal.length then
    match Json.read literal with
    | .ok value => .ok value
    | .error _ => .ok (Json.ofText (inner literal))
  else if literal = "true".toList then .ok (.bool true)
  else if literal = "false".toList then .ok (.bool false)
  else if literal = "null".toList then .ok .null
  else
    match numeral? literal with
    | some numeral => numeral.value
    | none => .error (.notLiteral literal)

theorem length_inner_lt {opening closing : Char} {text : Text}
    (h : isBetween opening closing (strip text) = true) :
    (inner (strip text)).length < text.length := by
  have hlength := length_strip_le text
  cases hstrip : strip text with
  | nil => simp [hstrip, isBetween] at h
  | cons c rest =>
    rw [hstrip] at hlength
    simp [inner] at *
    omega

/-- Reads a text as a literal, part by part. -/
def read (text : Text) : Except LiteralError Json :=
  if hobject : isBetween '{' '}' (strip text) = true then do
    let fields := assignments (inner (strip text)) true
    if fields.isEmpty && !(strip (inner (strip text))).isEmpty then
      .error (.noFields (strip text))
    else
      let pairs ← fields.attach.mapM fun ⟨field, hfield⟩ => do
        have : field.value.length < text.length :=
          Nat.lt_of_le_of_lt (length_value_le hfield) (length_inner_lt hobject)
        let value ← read field.value
        return (Runes.ofText field.name, value)
      return .object (Json.collect pairs)
  else if hlist : isBetween '[' ']' (strip text) = true then do
    let values ← (items (inner (strip text))).attach.mapM fun ⟨item, hitem⟩ =>
      have : item.length < text.length :=
        Nat.lt_of_le_of_lt (length_item_le hitem) (length_inner_lt hlist)
      read item
    return .array values
  else scalar (strip text)
termination_by text.length

/-! ### Display and projection -/

/-- The display form of a value: objects and lists with one item per line. Everything
else, and what does not read as a literal, stays as it is. -/
def display (text : Text) : Except LiteralError Text :=
  match strip text with
  | '{' :: _ | '[' :: _ =>
    match read (strip text) with
    | .ok value => .ok (Json.writeIndented value)
    | .error (.tooManyDigits digits) => .error (.tooManyDigits digits)
    | .error _ => .ok text
  | _ => .ok text

/-- The literal text of a property of an object. The object is read as JSON if it is
JSON; otherwise the field is looked up between the braces. -/
def property? (text name : Text) : Except LiteralError (Option Text) :=
  match Json.read (strip text) with
  | .error (.tooManyDigits digits) => .error (.tooManyDigits digits)
  | .ok (.object fields) => .ok ((fields.lookup (Runes.ofText name)).map format)
  | _ =>
    if isBetween '{' '}' (strip text) then .ok (assignedValue? (inner (strip text)) name true)
    else .ok none

end Literal

end TerraformTrace
