import TerraformTrace.Number.Decimal

/-!
# TerraformTrace.Json.Basic

JSON values. Numbers are integers of any size or floating-point numbers, as they were
written. Strings are sequences of code points: an escape can name a surrogate that has
no partner, and such a string has to survive reading and writing. The fields of an
object keep the order in which their keys first appeared.
-/

namespace TerraformTrace

/-- A code point: a character, or a surrogate that stands alone. -/
inductive Rune
  | char (c : Char)
  /-- The surrogate U+D800 plus the offset. -/
  | surrogate (offset : Fin 0x800)
deriving DecidableEq, Repr

/-- Text that may hold lone surrogates. -/
abbrev Runes := List Rune

namespace Runes

/-- The code points of a text. -/
def ofText (text : Text) : Runes := text.map .char

/-- The text of code points that are all characters. -/
def toText? (runes : Runes) : Option Text :=
  runes.mapM fun
    | .char c => some c
    | .surrogate _ => none

end Runes

/-- A JSON value. -/
inductive Json
  | null
  | bool (value : Bool)
  | int (value : Int)
  | float (value : Binary64)
  | string (value : Runes)
  | array (items : List Json)
  | object (fields : List (Runes × Json))
deriving Repr, Inhabited

namespace Json

/-- A text as a string. -/
def ofText (text : Text) : Json := .string (Runes.ofText text)

/-- A literal as a string. -/
def ofString (text : String) : Json := ofText text.toList

/-- Gives a key a value: in place if the key is there, else at the end. -/
def put (key : Runes) (value : Json) : List (Runes × Json) → List (Runes × Json)
  | [] => [(key, value)]
  | field :: fields =>
    if field.1 = key then (key, value) :: fields else field :: put key value fields

/-- The fields that a sequence of keys and values makes: a repeated key keeps its first
place and takes its last value. -/
def collect (pairs : List (Runes × Json)) : List (Runes × Json) :=
  pairs.foldl (fun fields pair => put pair.1 pair.2 fields) []

/-- The value of a key of an object. -/
def get? (key : Text) : Json → Option Json
  | .object fields => fields.lookup (Runes.ofText key)
  | _ => none

end Json

end TerraformTrace
