/-!
# Magnitudes of doubles

The sign aside, a double is a code below `2 ^ 63`. Codes order doubles by size: the finite ones come
first, then infinity, then the codes that are no number. Every finite double is a whole multiple
of `2 ^ (-1074)`, so its size is a natural number of such units.
-/

namespace WhileLang

set_option autoImplicit false

namespace Magnitude

def unitsPerOne : Nat := Nat.pow 2 1074

def stride : Nat := Nat.pow 2 52

/-- The code of infinity, the first that is not finite. -/
def infinity : Nat := 2047 * stride

/-- The size of a finite code, in units. Below the first stride the code itself counts them. -/
def units (code : Nat) : Nat :=
  if code < stride then code
  else (stride + code % stride) * Nat.pow 2 (code / stride - 1)

/-- The quotient rounded to the nearest whole number, a half to the even neighbour. -/
def roundHalfEven (numerator denominator : Nat) : Nat :=
  let quotient := numerator / denominator
  let twice := 2 * (numerator % denominator)
  if twice < denominator then quotient
  else if denominator < twice then quotient + 1
  else quotient + quotient % 2

/-- The code of the double nearest to a fraction, of two equally near ones that with the even
significand. Beyond the largest double it is infinity.

With a step of `2 ^ scale` units the rounded significand has at most 53 bits. A carry into the
54th bit is the next scale, which is what adding to the code does. -/
def nearest (numerator denominator : Nat) : Nat :=
  let scaled := numerator * unitsPerOne
  let scale := (scaled / denominator).log2 - 52
  min (scale * stride + roundHalfEven scaled (denominator * Nat.pow 2 scale)) infinity

end Magnitude

def isNegative (value : Float) : Bool :=
  Nat.pow 2 63 ≤ value.toBits.toNat

def magnitude (value : Float) : Nat :=
  value.toBits.toNat % Nat.pow 2 63

def floatOfMagnitude (negative : Bool) (code : Nat) : Float :=
  Float.ofBits (UInt64.ofNat (if negative then Nat.pow 2 63 + code else code))

end WhileLang
