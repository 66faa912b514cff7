import TerraformTrace.Json.Reader
import TerraformTrace.Yaml.Timestamp

/-!
# TerraformTrace.Yaml.Atom

The values of scalars. A plain scalar stands for nothing, a truth value, a number, an
integer or a timestamp if it has the form of one, and else for its own text; a quoted
scalar is always its text. Underscores may stand among the digits of numbers.

Some plain scalars have the form of a value and still stand for none, such as digits
that are all underscores; a document with one of them cannot be read.
-/

namespace TerraformTrace.Yaml

/-- A scalar value. -/
inductive Atom
  | null
  | truth (value : Bool)
  | integer (value : Int)
  | number (value : Binary64)
  | timestamp (value : Timestamp)
  | text (value : Text)
deriving DecidableEq, Repr

/-- The words with a value of their own. -/
def words : List (String × Atom) :=
  [("", .null), ("~", .null), ("null", .null), ("Null", .null), ("NULL", .null),
    ("true", .truth true), ("True", .truth true), ("TRUE", .truth true),
    ("false", .truth false), ("False", .truth false), ("FALSE", .truth false)]

/-! ### Forms of numbers -/

/-- A sign in front of a number, and the rest. -/
def signed : Text → Bool × Text
  | '-' :: rest => (true, rest)
  | '+' :: rest => (false, rest)
  | text => (false, text)

/-- Underscores are passed over. -/
def withoutMarks (digits : Text) : Text := digits.filter (· ≠ '_')

/-- A digit or an underscore. -/
def isDigitOrMark (c : Char) : Bool := c.isDigit || c = '_'

/-- The digits of an integer, without its sign, and their base. A base other than ten is
told by a letter after a zero. -/
def baseAndDigits? (text : Text) : Option (Nat × Text) :=
  let inBase (base : Nat) (digits : Text) : Option (Nat × Text) :=
    let isDigit (c : Char) : Bool := c = '_' || (Text.hexDigit? c).any (· < base)
    if digits.isEmpty || !digits.all isDigit then none else some (base, digits)
  match text with
  | '0' :: 'b' :: digits => inBase 2 digits
  | '0' :: 'o' :: digits => inBase 8 digits
  | '0' :: 'x' :: digits => inBase 16 digits
  | digits => inBase 10 digits

/-- The value of the digits of an integer. There has to be a digit, and in base ten there
must not be too many. -/
def magnitude? (base : Nat) (digits : Text) : Option Nat :=
  let digits := withoutMarks digits
  if digits.isEmpty || (base = 10 && Json.maxDigits < digits.length) then none
  else some (digits.foldl (fun value c => value * base + (Text.hexDigit? c).getD 0) 0)

/-- The parts of a number with a fraction. -/
structure Numeral where
  whole : Text
  decimals : Text
  exponent : Int
deriving DecidableEq, Repr

/-- The exponent that ends a number, if there is one; after a bare fraction it needs a
sign. -/
def exponent? (signRequired : Bool) : Text → Option Int
  | [] => some 0
  | e :: rest =>
    if e = 'e' || e = 'E' then
      let (negative, digits) := signed rest
      if digits.isEmpty || !digits.all Char.isDigit then none
      else if signRequired && rest = digits then none
      else
        let value : Int := Text.digitsValue digits
        some (if negative then -value else value)
    else none

/-- A number with a point or an exponent, without its sign. -/
def numeral? (text : Text) : Option Numeral :=
  let (whole, rest) := text.span isDigitOrMark
  if whole.head? = some '_' then none
  else
    match rest with
    | '.' :: rest =>
      let (decimals, rest) := rest.span isDigitOrMark
      if whole.isEmpty && decimals.isEmpty then none
      else (exponent? whole.isEmpty rest).map fun exponent => { whole, decimals, exponent }
    | [] => none
    | _ =>
      if whole.isEmpty then none
      else (exponent? false rest).map fun exponent => { whole, decimals := [], exponent }

/-- The value of a number. There has to be a digit. -/
def Numeral.value? (negative : Bool) (numeral : Numeral) : Option Binary64 :=
  let whole := withoutMarks numeral.whole
  let decimals := withoutMarks numeral.decimals
  if whole.isEmpty && decimals.isEmpty then none
  else
    some (Binary64.ofDecimal negative (Text.digitsValue (whole ++ decimals))
      (numeral.exponent - decimals.length))

/-- Numbers that are not finite. -/
def named? (text : Text) : Option Binary64 :=
  let (negative, rest) := signed text
  if [".inf", ".Inf", ".INF"].any (·.toList = rest) then some (.infinity negative)
  else if [".nan", ".NaN", ".NAN"].any (·.toList = text) then some .nan
  else none

namespace Atom

/-! ### Plain scalars -/

/-- The mark of entries to take over from other mappings. -/
def mergeMark : Text := "<<".toList

/-- The mark of a default value. It is a text where it is a key and nothing elsewhere. -/
def defaultMark : Text := "=".toList

/-- Whether a text starts as numbers and timestamps do. -/
def startsNumber (text : Text) : Bool :=
  text.head?.any fun c => c.isDigit || c = '-' || c = '+' || c = '.'

/-- The value of a plain scalar. None if it has the form of a value and stands for
none. -/
def ofPlain? (text : Text) : Option Atom :=
  match words.find? (·.1.toList = text) with
  | some (_, value) => some value
  | none =>
    if text = mergeMark || text = defaultMark then none
    else if !startsNumber text then some (.text text)
    else
      let (negative, unsigned) := signed text
      match named? text, numeral? unsigned, baseAndDigits? unsigned, Timestamp.ofText? text with
      | some value, _, _, _ => some (.number value)
      | none, some numeral, _, _ => (numeral.value? negative).map .number
      | none, none, some (base, digits), _ =>
        (magnitude? base digits).map fun n => .integer (if negative then -(n : Int) else n)
      | none, none, none, some time => time.checked?.map .timestamp
      | none, none, none, none => some (.text text)

/-! ### Comparison and display -/

/-- The integer that a number of any kind is. -/
def integer? : Atom → Option Int
  | .truth value => some (if value then 1 else 0)
  | .integer value => some value
  | .number value => if value.isIntegral then some value.toInt else none
  | _ => none

/-- Whether two values are the same as keys. Numbers of all kinds, and truth values as
one and zero, are compared by what they are worth. -/
def same (a b : Atom) : Bool :=
  match a.integer?, b.integer? with
  | some m, some n => m = n
  | some _, none => false
  | none, some _ => false
  | none, none =>
    match a, b with
    | .timestamp s, .timestamp t => s.same t
    | _, _ => a = b

/-- A value as it is shown. -/
def shown : Atom → Text
  | .null => "None".toList
  | .truth value => if value then "True".toList else "False".toList
  | .integer value => Text.ofInt value
  | .number value => value.toText
  | .timestamp value => value.shown
  | .text value => Text.quoted value

end Atom

end TerraformTrace.Yaml
