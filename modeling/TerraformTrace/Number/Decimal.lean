import TerraformTrace.Number.Binary64
import TerraformTrace.Text.Basic

/-!
# TerraformTrace.Number.Decimal

Floating-point numbers as decimal text, and back.

Writing takes the fewest digits that read back as the same number, and of those the
nearest. Positional notation is used for values from 10⁻⁴ up to 10¹⁶, with `.0` after
an integer; outside that range one digit stands before the point and the exponent has a
sign and at least two digits. Reading is exact: the decimal is rounded once.
-/

namespace TerraformTrace

namespace Binary64

/-! ### The fewest digits -/

/-- The number `digits · 10 ^ exponent`. -/
structure Decimal where
  digits : Nat
  exponent : Int
deriving DecidableEq, Repr

/-- Compares `digits · 10 ^ exponent` with `n · 2 ^ q`. -/
def compareDecimal (decimal : Decimal) (n : Nat) (q : Int) : Ordering :=
  let left := decimal.digits *
    (if 0 ≤ decimal.exponent then Nat.pow 10 decimal.exponent.toNat else 1) *
    (if 0 ≤ q then 1 else Nat.pow 2 q.natAbs)
  let right := n * (if 0 ≤ q then Nat.pow 2 q.toNat else 1) *
    (if 0 ≤ decimal.exponent then 1 else Nat.pow 10 decimal.exponent.natAbs)
  compare left right

/-- Whether a decimal reads back as `significand · 2 ^ exponent`: it lies between the
midpoints to the neighbours, and on a midpoint only if the significand is even. Below a
power of two the neighbour is half as far. -/
def readsBack (significand : Nat) (exponent : Int) (decimal : Decimal) : Bool :=
  let narrow := significand = Nat.pow 2 52 && exponent ≠ minExponent
  let low := 4 * significand - (if narrow then 1 else 2)
  let high := 4 * significand + 2
  let fits (order wanted : Ordering) :=
    order = wanted || (order = .eq && significand % 2 = 0)
  fits (compareDecimal decimal low (exponent - 2)) .gt &&
    fits (compareDecimal decimal high (exponent - 2)) .lt

/-- The greatest multiple of `10 ^ place` that is not above `significand · 2 ^ exponent`,
and how the middle of the step above it compares with the number. -/
def gridBelow (significand : Nat) (exponent place : Int) : Nat × Ordering :=
  let num := significand * (if 0 ≤ exponent then Nat.pow 2 exponent.toNat else 1) *
    (if 0 ≤ place then 1 else Nat.pow 10 place.natAbs)
  let den := (if 0 ≤ exponent then 1 else Nat.pow 2 exponent.natAbs) *
    (if 0 ≤ place then Nat.pow 10 place.toNat else 1)
  (num / den, compare den (2 * (num % den)))

/-- The decimal at a place that reads back, the nearer if both neighbours do; a tie goes
to the even digit. -/
def atPlace? (significand : Nat) (exponent place : Int) : Option Decimal :=
  let (below, middle) := gridBelow significand exponent place
  let low : Decimal := ⟨below, place⟩
  let high : Decimal := ⟨below + 1, place⟩
  match readsBack significand exponent low, readsBack significand exponent high with
  | true, true =>
    match middle with
    | .gt => some low
    | .lt => some high
    | .eq => some (if below % 2 = 0 then low else high)
  | true, false => some low
  | false, true => some high
  | false, false => none

/-- The exponent of ten of the leading digit of a positive number. -/
def floorLog10 (significand : Nat) (exponent : Int) : Int :=
  let guess := (floorLog2 significand 1 + exponent) * 1233 / 4096
  let isAtMost (e : Int) := compareDecimal ⟨1, e⟩ significand exponent ≠ .gt
  if isAtMost (guess + 1) then guess + 1 else if isAtMost guess then guess else guess - 1

/-- The shortest decimal that reads back as a positive number; seventeen digits always
do. -/
def shortest (significand : Nat) (exponent : Int) : Decimal :=
  let leading := floorLog10 significand exponent
  ((List.range 17).findSome? fun (n : Nat) => atPlace? significand exponent (leading - n)).getD
    ⟨(gridBelow significand exponent (leading - 17)).1, leading - 17⟩

/-! ### Notation -/

/-- How numbers are laid out. -/
structure Layout where
  /-- Least exponent of the leading digit that is written positionally. -/
  least : Int
  /-- First exponent of the leading digit that is not. -/
  beyond : Int
  /-- Least number of digits of a written exponent. -/
  exponentDigits : Nat
  nan : Text
  infinity : Text

/-- The notation of numbers in messages and statistics. -/
def plain : Layout :=
  { least := -4, beyond := 16, exponentDigits := 2, nan := "nan".toList, infinity := "inf".toList }

/-- A numeral with zeros before it up to a width. -/
def padLeft (width : Nat) (numeral : Text) : Text :=
  List.replicate (width - numeral.length) '0' ++ numeral

/-- The digits with a point after the first of them, if there are more. -/
def pointed : Text → Text
  | [] => []
  | [digit] => [digit]
  | digit :: rest => digit :: '.' :: rest

/-- Lays out the digits of a positive decimal, the first of which has the exponent
`leading`. -/
def layout (form : Layout) (digits : Text) (leading : Int) : Text :=
  if leading < form.least || form.beyond ≤ leading then
    pointed digits ++ 'e' :: (if leading < 0 then '-' else '+') ::
      padLeft form.exponentDigits (Text.ofNat leading.natAbs)
  else if leading < 0 then
    '0' :: '.' :: List.replicate (leading.natAbs - 1) '0' ++ digits
  else
    let whole := leading.toNat + 1
    let digits := digits ++ List.replicate (whole - digits.length) '0'
    let fraction := digits.drop whole
    digits.take whole ++ '.' :: (if fraction.isEmpty then ['0'] else fraction)

/-- The digits of a decimal without zeros at the end. -/
def significantDigits (digits : Nat) : Text :=
  let all := Text.ofNat digits
  (all.reverse.dropWhile (· = '0')).reverse

/-- Writes a number in a layout. -/
def write (form : Layout) : Binary64 → Text
  | .nan => form.nan
  | .infinity negative => if negative then '-' :: form.infinity else form.infinity
  | .finite negative significand exponent =>
    let body :=
      if significand = 0 then "0.0".toList
      else
        let decimal := shortest significand exponent
        let size : Int := (Text.ofNat decimal.digits).length
        layout form (significantDigits decimal.digits) (decimal.exponent + size - 1)
    if negative then '-' :: body else body

/-- A number as plain text. -/
def toText (x : Binary64) : Text := write plain x

end Binary64

end TerraformTrace
