import WhileLang.Number.Decimal

/-!
# Layout of numbers

Three texts of a number share their digits and differ in layout: what a program prints, what is
shown of a literal, and what stands in a JSON document.
-/

namespace WhileLang

set_option autoImplicit false

namespace Decimal

/-- All digits up to the point and behind it, without an exponent. -/
def positional (decimal : Decimal) : List Char :=
  let digits := Nat.toDigits 10 decimal.digits
  if 0 ≤ decimal.exponent then digits ++ List.replicate decimal.exponent.toNat '0'
  else
    let places := (-decimal.exponent).toNat
    if places < digits.length then
      digits.take (digits.length - places) ++ '.' :: digits.drop (digits.length - places)
    else '0' :: '.' :: List.replicate (places - digits.length) '0' ++ digits

def scientific (decimal : Decimal) : List Char :=
  let digits := Nat.toDigits 10 decimal.digits
  let power := digits.length - 1 + decimal.exponent
  let tail := if digits.length ≤ 1 then [] else '.' :: digits.drop 1
  let sign := if power < 0 then '-' else '+'
  digits.take 1 ++ tail ++ 'e' :: sign :: Nat.toDigits 10 power.natAbs

/-- Positional from `0.00001` up to 16 digits before the point, and then with at least one digit
behind it; scientific beyond. -/
def fractional (decimal : Decimal) : List Char :=
  let power := digitCount decimal.digits - 1 + decimal.exponent
  if -5 ≤ power ∧ power ≤ 15 then
    if 0 ≤ decimal.exponent then decimal.positional ++ ['.', '0'] else decimal.positional
  else decimal.scientific

end Decimal

structure NumberStyle where
  tie : Decimal.Tie
  nan : String
  /-- The text of an infinity, given whether it is negative. -/
  infinity : Bool → String
  /-- A negative zero keeps its sign. -/
  signedZero : Bool
  finite : Decimal → List Char

def NumberStyle.write (style : NumberStyle) (value : Float) : String :=
  let code := magnitude value
  if Magnitude.infinity < code then style.nan
  else if code = Magnitude.infinity then style.infinity (isNegative value)
  else
    let text := style.finite (Decimal.shortest style.tie code)
    if isNegative value && (code ≠ 0 || style.signedZero) then String.ofList ('-' :: text)
    else String.ofList text

def NumberStyle.printed : NumberStyle :=
  ⟨.up, "NaN", fun negative => if negative then "-Infinity" else "Infinity", false,
    Decimal.positional⟩

def NumberStyle.shown : NumberStyle :=
  ⟨.up, "NaN", fun negative => if negative then "-inf" else "inf", true, Decimal.positional⟩

/-- Numbers in JSON, which has none that are not finite. -/
def NumberStyle.json : NumberStyle :=
  ⟨.even, "null", fun _ => "null", true, Decimal.fractional⟩

def printNumber (value : Float) : String :=
  NumberStyle.printed.write value

def showNumber (value : Float) : String :=
  NumberStyle.shown.write value

end WhileLang
