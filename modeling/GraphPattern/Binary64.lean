/-!
# Binary floating-point numbers of 64 bits

A number is its bit pattern: a sign, eleven bits of exponent and fifty-two of fraction. Everything
is computed on these bits with exact integer arithmetic, so equality of numbers as data is equality
of bits, while the order of the numbers they stand for is `Binary64.compare?`.
-/

namespace GraphPattern

/-- A floating-point number given by its bits. -/
structure Binary64 where
  /-- Sign, exponent and fraction, the sign foremost. -/
  bits : UInt64
deriving DecidableEq

namespace Binary64

/-- One more than the largest fraction. -/
def fractionLimit : Nat := 0x10000000000000

/-- The bit of the sign. -/
def signBit : Nat := 0x8000000000000000

/-- The bits of infinity. Larger magnitudes are not numbers. -/
def infinityMagnitude : Nat := 0x7ff * fractionLimit

/-- The bits without the sign. -/
def magnitude (x : Binary64) : Nat := x.bits.toNat % signBit

/-- Whether the sign bit is set. -/
def isNegative (x : Binary64) : Bool := signBit ≤ x.bits.toNat

/-- Whether the bits stand for no number. -/
def isNaN (x : Binary64) : Bool := infinityMagnitude < x.magnitude

/-- Whether the number is one of the two infinities. -/
def isInfinite (x : Binary64) : Bool := x.magnitude = infinityMagnitude

/-- The number with the given sign and bits. -/
def ofMagnitude (negative : Bool) (m : Nat) : Binary64 :=
  ⟨((if negative then signBit else 0) + m).toUInt64⟩

/-- Infinity with the given sign. -/
def infinity (negative : Bool) : Binary64 := ofMagnitude negative infinityMagnitude

/-- The quiet pattern that stands for no number, with the given sign. -/
def notANumber (negative : Bool) : Binary64 :=
  ofMagnitude negative (infinityMagnitude + fractionLimit / 2)

/-- The place of a number among all numbers; the two zeros share one place. -/
def rank (x : Binary64) : Int := if x.isNegative then -(x.magnitude : Int) else x.magnitude

/-- The order of two numbers, or nothing when one of them is not a number. -/
def compare? (x y : Binary64) : Option Ordering :=
  if x.isNaN || y.isNaN then none else some (compare x.rank y.rank)

/-- Whether two numbers are equal in value. -/
def sameValue (x y : Binary64) : Bool := x.compare? y = some .eq

/-- The whole number nearest to a quotient; a half goes to the even neighbour. -/
def roundHalfEven (num den : Nat) : Nat :=
  let quotient := num / den
  let rest := 2 * (num % den)
  if rest < den then quotient
  else if den < rest then quotient + 1
  else quotient + quotient % 2

/-- Exponent of the largest power of two that is at most `num / den`. -/
def leadingExponent (num den : Nat) : Int :=
  let guess : Int := num.log2 - den.log2
  let reached :=
    if 0 ≤ guess then den <<< guess.toNat ≤ num else den ≤ num <<< (-guess).toNat
  if reached then guess else guess - 1

/-- The bits of the number nearest to `num / den`, infinity when it is out of range. Below the
smallest normal number the unit of the last place stays fixed. -/
def nearestMagnitude (num den : Nat) : Nat :=
  if num = 0 then 0
  else
    let unit := max (leadingExponent num den - 52) (-1074)
    let significand :=
      if 0 ≤ unit then roundHalfEven num (den <<< unit.toNat)
      else roundHalfEven (num <<< (-unit).toNat) den
    min infinityMagnitude ((unit + 1074).toNat * fractionLimit + significand)

/-- The number nearest to a quotient, with a sign of its own so that zero may be negative. -/
def ofRatio (negative : Bool) (num den : Nat) : Binary64 :=
  ofMagnitude negative (nearestMagnitude num den)

/-- The number nearest to a whole number. -/
def ofInt (i : Int) : Binary64 := ofRatio (i < 0) i.natAbs 1

/-- A finite magnitude as a whole number of units and the exponent of the unit. -/
def significand (x : Binary64) : Nat × Int :=
  let field := x.magnitude / fractionLimit
  let fraction := x.magnitude % fractionLimit
  if field = 0 then (fraction, -1074) else (fractionLimit + fraction, (field : Int) - 1075)

/-- A finite magnitude as a quotient. -/
def toRatio (x : Binary64) : Nat × Nat :=
  let (units, exponent) := x.significand
  if 0 ≤ exponent then (units <<< exponent.toNat, 1) else (units, 1 <<< (-exponent).toNat)

/-- The product of two finite magnitudes, rounded. -/
def mulMagnitude (x y : Binary64) : Binary64 :=
  let (a, b) := x.toRatio
  let (c, d) := y.toRatio
  ofRatio false (a * c) (b * d)

/-- The quotient of two finite magnitudes, rounded. The divisor is not zero. -/
def divMagnitude (x y : Binary64) : Binary64 :=
  let (a, b) := x.toRatio
  let (c, d) := y.toRatio
  ofRatio false (a * d) (b * c)

/-- The number with the opposite sign. -/
def negate (x : Binary64) : Binary64 := ofMagnitude (!x.isNegative) x.magnitude

example : ofInt 1 = ⟨0x3ff0000000000000⟩ := by decide
example : ofInt 9007199254740993 = ofInt 9007199254740992 := by decide
example : ofInt (-9223372036854775808) = ⟨0xc3e0000000000000⟩ := by decide
example : ofRatio false 1 10 = ⟨0x3fb999999999999a⟩ := by decide

end Binary64

end GraphPattern
