import WhileLang.Number.Magnitude

/-!
# Decimals

A decimal is a whole number of powers of ten. `Decimal.code` reads one as the nearest double;
`shortest` is the other direction, the decimal with the fewest digits that reads as a given double.
-/

namespace WhileLang

set_option autoImplicit false

/-- `digits · 10 ^ exponent`. -/
structure Decimal where
  digits : Nat
  exponent : Int
  deriving DecidableEq, Repr

namespace Decimal

def digitCount (number : Nat) : Nat :=
  (Nat.toDigits 10 number).length

/-- The code of the nearest double. A decimal of `n` digits lies below `10 ^ (n + exponent)` and not
below a tenth of that, so the exponents beyond both ends of the doubles need no powers of ten. -/
def code (decimal : Decimal) : Nat :=
  let top := digitCount decimal.digits + decimal.exponent
  if decimal.digits = 0 then 0
  else if 310 < top then Magnitude.infinity
  else if top < -330 then 0
  else if 0 ≤ decimal.exponent then
    Magnitude.nearest (decimal.digits * Nat.pow 10 decimal.exponent.toNat) 1
  else Magnitude.nearest decimal.digits (Nat.pow 10 (-decimal.exponent).toNat)

inductive Tie where
  | up
  | even
  deriving DecidableEq, Repr

def ratio (code : Nat) (exponent : Int) : Nat × Nat :=
  if 0 ≤ exponent then
    (Magnitude.units code, Magnitude.unitsPerOne * Nat.pow 10 exponent.toNat)
  else (Magnitude.units code * Nat.pow 10 (-exponent).toNat, Magnitude.unitsPerOne)

/-- The multiple of `10 ^ exponent` that reads as `code`. If any does, one of the two multiples next
to the exact size does; if both do, the nearer one is taken. -/
def onGrid (tie : Tie) (code : Nat) (exponent : Int) : Option Decimal :=
  let (numerator, denominator) := ratio code exponent
  let low := numerator / denominator
  let below : Decimal := ⟨low, exponent⟩
  let above : Decimal := ⟨low + 1, exponent⟩
  if below.code = code then
    if above.code = code then
      let twice := 2 * (numerator % denominator)
      if twice < denominator then some below
      else if denominator < twice then some above
      else
        match tie with
        | .up => some above
        | .even => if low % 2 = 0 then some below else some above
    else some below
  else if above.code = code then some above
  else none

/-- An exponent whose power of ten exceeds the size of the code. -/
def ceiling (code : Nat) : Int :=
  let size := Magnitude.units code
  if Magnitude.unitsPerOne ≤ size then digitCount (size / Magnitude.unitsPerOne)
  else 2 - digitCount (Magnitude.unitsPerOne / size)

def refine (tie : Tie) (code : Nat) : Nat → Int → Decimal
  | 0, exponent => ⟨(ratio code exponent).1 / (ratio code exponent).2, exponent⟩
  | steps + 1, exponent =>
    match onGrid tie code exponent with
    | some decimal => decimal
    | none => refine tie code steps (exponent - 1)

/-- The decimal of the fewest digits that reads as a finite code, and of these the nearest to it. A
unit is a multiple of `10 ^ (-1074)`, so the search ends there at the latest. -/
def shortest (tie : Tie) (code : Nat) : Decimal :=
  if code = 0 then ⟨0, 0⟩
  else refine tie code (ceiling code + 1074).toNat (ceiling code)

end Decimal

end WhileLang
