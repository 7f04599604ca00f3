import WhileLang.Alphabet
import WhileLang.Number.Decimal

/-!
# Numerals

Reading numbers from text. A program only has plain digits; seeds given by a user may have a sign, a
point, an exponent, or be `inf`, `infinity` or `nan` in any case.
-/

namespace WhileLang

set_option autoImplicit false

def digitsValue (digits : List Char) : Nat :=
  digits.foldl (fun value digit => 10 * value + (digit.toNat - '0'.toNat)) 0

def Decimal.toFloat (decimal : Decimal) (negative : Bool) : Float :=
  floatOfMagnitude negative decimal.code

def numeralValue (digits : List Char) : Float :=
  Decimal.toFloat ⟨digitsValue digits, 0⟩ false

namespace Numeral

/-- A sign, if there is one, and what follows it. Without a sign a number is positive. -/
def splitSign : List Char → Bool × List Char
  | '-' :: rest => (true, rest)
  | '+' :: rest => (false, rest)
  | text => (false, text)

/-- The exponent at the end of a numeral: nothing, or a mark, perhaps a sign, and digits. -/
def exponent? : List Char → Option Int
  | [] => some 0
  | mark :: rest =>
    if mark = 'e' || mark = 'E' then
      let (negative, digits) := splitSign rest
      if digits.isEmpty || !digits.all isDigit then none
      else some (if negative then -(digitsValue digits : Int) else digitsValue digits)
    else none

/-- Digits with an optional point that has digits on at least one side, and an optional exponent. -/
def decimal? (text : List Char) : Option Decimal :=
  let whole := text.takeWhile isDigit
  let rest := text.dropWhile isDigit
  let fraction := if rest.head? = some '.' then rest.tail.takeWhile isDigit else []
  let rest := if rest.head? = some '.' then rest.tail.dropWhile isDigit else rest
  if whole.isEmpty && fraction.isEmpty then none
  else (exponent? rest).map fun exponent =>
    ⟨digitsValue (whole ++ fraction), exponent - fraction.length⟩

def special? (text : List Char) : Option Nat :=
  let lower := text.map Char.toLower
  if lower = "inf".toList || lower = "infinity".toList then some Magnitude.infinity
  else if lower = "nan".toList then some (Magnitude.infinity + Magnitude.stride / 2)
  else none

def read? (text : List Char) : Option Float :=
  let (negative, rest) := splitSign text
  match special? rest with
  | some code => some (floatOfMagnitude negative code)
  | none => (decimal? rest).map (·.toFloat negative)

end Numeral

end WhileLang
