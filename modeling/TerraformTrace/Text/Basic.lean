/-!
# TerraformTrace.Text.Basic

Text is a list of characters. Configuration text, names, values, cache keys and
path components all share this one type, so every scanner of the library recurses
on the text itself and positions count characters.

The module holds what is needed of lists of characters beyond core: lines,
splitting at a character, joining, and the substring test.
-/

namespace TerraformTrace

/-- A text: its characters in order. -/
abbrev Text := List Char

namespace Text

/-- A text as a string. -/
def toString (text : Text) : String := String.ofList text

/-! ### Splitting and joining -/

/-- The pieces of a text between the characters equal to `mark`. There is always at
least one piece; `join` with the same mark puts the text back together. -/
def splitAt (mark : Char) : Text → List Text
  | [] => [[]]
  | c :: rest =>
    if c = mark then [] :: splitAt mark rest
    else
      match splitAt mark rest with
      | [] => [[c]]
      | piece :: pieces => (c :: piece) :: pieces

/-- Concatenates the pieces with `separator` between neighbours. -/
def join (separator : Text) : List Text → Text
  | [] => []
  | [piece] => piece
  | piece :: pieces => piece ++ separator ++ join separator pieces

/-- The line a text starts with, without its line break. -/
def firstLine (text : Text) : Text := text.takeWhile (· ≠ '\n')

/-- The lines of a text. A line break ends the line before it, so a text that ends
in one has no further, empty line. -/
def lines (text : Text) : List Text :=
  if (splitAt '\n' text).getLast? = some [] then (splitAt '\n' text).dropLast
  else splitAt '\n' text

/-! ### Substrings -/

/-- Whether `fragment` stands somewhere in a text. The empty fragment stands in every
text. -/
def occursIn (fragment : Text) : Text → Bool
  | [] => fragment.isEmpty
  | c :: rest => fragment.isPrefixOf (c :: rest) || occursIn fragment rest

/-- Whether a text ends with another. -/
def endsWith (suffix text : Text) : Bool := suffix.isSuffixOf text

/-! ### Order

Sorting is by insertion, so that it computes by recursion on the list alone. -/

/-- Puts an item into a list, before the first item that may come after it. -/
def insertBy {α : Type} (le : α → α → Bool) (item : α) : List α → List α
  | [] => [item]
  | head :: rest => if le item head then item :: head :: rest else head :: insertBy le item rest

/-- The items in increasing order; items that may stand either way keep their order. -/
def sortBy {α : Type} (le : α → α → Bool) : List α → List α
  | [] => []
  | item :: rest => insertBy le item (sortBy le rest)

/-- Texts are ordered character by character, by code point. -/
def le : Text → Text → Bool
  | [], _ => true
  | _ :: _, [] => false
  | c :: s, d :: t => c.val < d.val || (c = d && le s t)

/-- Sorts texts by code points. -/
def sort (texts : List Text) : List Text := sortBy le texts

/-! ### Decimal numerals -/

/-- The decimal numeral of a natural number. -/
def ofNat (n : Nat) : Text := Nat.toDigits 10 n

/-- The decimal numeral of an integer, with a minus sign below zero. -/
def ofInt (n : Int) : Text :=
  if n < 0 then '-' :: ofNat n.natAbs else ofNat n.natAbs

end Text

/-- Cuts the first and the last element off a list. -/
def inner {α : Type} (items : List α) : List α := items.tail.dropLast

end TerraformTrace
