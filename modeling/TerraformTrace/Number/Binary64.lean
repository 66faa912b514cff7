/-!
# TerraformTrace.Number.Binary64

Binary floating-point numbers with a 53-bit significand and exponents from −1074 to
971, held as exact numbers: a finite one is a sign, a significand and an exponent of
two. Every operation computes the exact result as a fraction and rounds it once, to
the nearest number and on a tie to the even one, so the arithmetic is that of the
usual 64-bit format.

Main definitions: `ofRatio` (rounding), the four operations that clocks and statistics
need, the order, and `roundPlaces` (rounding to decimal places).
-/

namespace TerraformTrace

/-- A binary floating-point number. The finite ones are `± significand · 2 ^ exponent`. -/
inductive Binary64
  | nan
  | infinity (negative : Bool)
  | finite (negative : Bool) (significand : Nat) (exponent : Int)
deriving DecidableEq, Repr

namespace Binary64

/-- The least exponent. -/
def minExponent : Int := -1074

/-- The greatest exponent. -/
def maxExponent : Int := 971

/-- Positive zero. -/
def zero : Binary64 := .finite false 0 minExponent

/-! ### Rounding -/

/-- A quotient rounded to the nearest integer, a half going to the even one. -/
def roundDiv (num den : Nat) : Nat :=
  let quotient := num / den
  let rest := num % den
  if 2 * rest < den then quotient
  else if den < 2 * rest then quotient + 1
  else quotient + quotient % 2

/-- The fraction `num / den · 2 ^ shift` as a numerator and a denominator. -/
def scale (num den : Nat) (shift : Int) : Nat × Nat :=
  if 0 ≤ shift then (num * Nat.pow 2 shift.toNat, den)
  else (num, den * Nat.pow 2 shift.natAbs)

/-- The greatest `e` with `2 ^ e ≤ num / den`, for positive numbers. -/
def floorLog2 (num den : Nat) : Int :=
  let guess : Int := (Nat.log2 num : Int) - Nat.log2 den
  let (n, d) := scale num den (-guess)
  if d ≤ n then guess else guess - 1

/-- The number nearest to `± num / den`; beyond the greatest one, infinity. -/
def ofRatio (negative : Bool) (num den : Nat) : Binary64 :=
  if num = 0 then .finite negative 0 minExponent
  else
    let exponent := max minExponent (floorLog2 num den - 52)
    let (n, d) := scale num den (-exponent)
    let significand := roundDiv n d
    let (significand, exponent) :=
      if significand = Nat.pow 2 53 then (Nat.pow 2 52, exponent + 1)
      else (significand, exponent)
    if maxExponent < exponent then .infinity negative
    else .finite negative significand exponent

/-- The number nearest an integer. -/
def ofInt (n : Int) : Binary64 := ofRatio (n < 0) n.natAbs 1

/-- The number nearest a natural. -/
def ofNat (n : Nat) : Binary64 := ofRatio false n 1

/-- The number nearest to `± digits · 10 ^ exponent`. Values far outside the range are
decided by their size alone. -/
def ofDecimal (negative : Bool) (digits : Nat) (exponent : Int) : Binary64 :=
  let size : Int := (Nat.toDigits 10 digits).length + exponent
  if digits = 0 || size < -330 then .finite negative 0 minExponent
  else if 310 < size then .infinity negative
  else if 0 ≤ exponent then ofRatio negative (digits * Nat.pow 10 exponent.toNat) 1
  else ofRatio negative digits (Nat.pow 10 exponent.natAbs)

/-! ### Arithmetic -/

/-- The number with the other sign. -/
def neg : Binary64 → Binary64
  | .nan => .nan
  | .infinity negative => .infinity !negative
  | .finite negative significand exponent => .finite (!negative) significand exponent

/-- The signed significand at a smaller exponent. -/
def alignTo (least : Int) (negative : Bool) (significand : Nat) (exponent : Int) : Int :=
  let magnitude : Int := (significand * Nat.pow 2 (exponent - least).toNat : Nat)
  if negative then -magnitude else magnitude

/-- The number nearest to `num · 2 ^ exponent`. -/
def ofScaled (num : Int) (exponent : Int) : Binary64 :=
  let (n, d) := scale num.natAbs 1 exponent
  ofRatio (num < 0) n d

/-- The sum. Opposite infinities have none. -/
def add : Binary64 → Binary64 → Binary64
  | .nan, _ => .nan
  | _, .nan => .nan
  | .infinity a, .infinity b => if a = b then .infinity a else .nan
  | .infinity a, _ => .infinity a
  | _, .infinity b => .infinity b
  | .finite a m p, .finite b n q =>
    let least := min p q
    let sum := alignTo least a m p + alignTo least b n q
    if sum = 0 then .finite (a && b) 0 minExponent else ofScaled sum least

/-- The rounded difference. -/
def sub (x y : Binary64) : Binary64 := add x (neg y)

/-- The product. Zero times infinity has none. -/
def mul : Binary64 → Binary64 → Binary64
  | .nan, _ => .nan
  | _, .nan => .nan
  | .infinity a, .infinity b => .infinity (a != b)
  | .infinity a, .finite b n _ => if n = 0 then .nan else .infinity (a != b)
  | .finite a m _, .infinity b => if m = 0 then .nan else .infinity (a != b)
  | .finite a m p, .finite b n q =>
    let (num, den) := scale (m * n) 1 (p + q)
    ofRatio (a != b) num den

instance : Add Binary64 := ⟨add⟩
instance : Sub Binary64 := ⟨sub⟩
instance : Mul Binary64 := ⟨mul⟩

/-! ### Order -/

/-- Whether one number is less than another. Nothing is less or greater than `nan`, and
the two zeros are equal. -/
def blt : Binary64 → Binary64 → Bool
  | .nan, _ => false
  | _, .nan => false
  | .infinity a, .infinity b => a && !b
  | .infinity a, .finite .. => a
  | .finite .., .infinity b => !b
  | .finite a m p, .finite b n q =>
    let least := min p q
    alignTo least a m p < alignTo least b n q

instance : LT Binary64 := ⟨fun x y => blt x y = true⟩

instance : DecidableLT Binary64 := fun x y => inferInstanceAs (Decidable (blt x y = true))

/-- Whether a number has no fraction. -/
def isIntegral : Binary64 → Bool
  | .finite _ significand exponent =>
    0 ≤ exponent || significand % Nat.pow 2 exponent.natAbs = 0
  | _ => false

/-- The integer part toward zero of a finite number. -/
def toInt : Binary64 → Int
  | .finite negative significand exponent =>
    let (n, d) := scale significand 1 exponent
    if negative then -((n / d : Nat) : Int) else ((n / d : Nat) : Int)
  | _ => 0

/-! ### Decimal places -/

/-- The number nearest to this one rounded to `places` decimal places, a half going to
the even last digit. -/
def roundPlaces (places : Nat) : Binary64 → Binary64
  | .finite negative significand exponent =>
    let (n, d) := scale (significand * Nat.pow 10 places) 1 exponent
    ofRatio negative (roundDiv n d) (Nat.pow 10 places)
  | x => x

end Binary64

end TerraformTrace
