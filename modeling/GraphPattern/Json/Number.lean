import GraphPattern.Json
import GraphPattern.Value

/-!
# Numbers in JSON text

The digits of a number are gathered in a significand of 64 bits; digits that no longer fit only
count as powers of ten. A number without point and exponent that fits is an integer. Any other one
is the significand as a floating-point number, scaled by a power of ten: one multiplication or
division with one rounding, after repeated division by the largest power while the exponent is too
small. A number beyond the range is refused.
-/

namespace GraphPattern.Json.Number

/-- The largest significand. -/
def significandLimit : Nat := 0xffffffffffffffff

/-- The largest power of ten that is used in one step. -/
def largestPower : Int := 308

/-- The floating-point number nearest to a power of ten. -/
def powerOfTen (n : Nat) : Binary64 := Binary64.ofDecimal false 1 n

/-- Divide by the largest power of ten until the exponent is within reach, then scale. Three rounds
take every significand to zero. -/
def scaleWithin : Nat → Binary64 → Int → Option Binary64
  | 0, x, _ => some x
  | rounds + 1, x, exponent =>
    if 0 ≤ exponent && exponent ≤ largestPower then
      let scaled := x.mulMagnitude (powerOfTen exponent.toNat)
      if scaled.isInfinite then none else some scaled
    else if -largestPower ≤ exponent && exponent < 0 then
      some (x.divMagnitude (powerOfTen (-exponent).toNat))
    else if x.magnitude = 0 then some x
    else if 0 ≤ exponent then none
    else
      scaleWithin rounds (x.divMagnitude (powerOfTen largestPower.toNat)) (exponent + largestPower)

/-- A significand scaled by a power of ten. -/
def scale (negative : Bool) (significand : Nat) (exponent : Int) : Option Json :=
  (scaleWithin 4 (Binary64.ofInt significand) exponent).map fun x =>
    float (if negative then x.negate else x)

/-- Gather digits into a significand while they fit: the significand, the number of digits
gathered, the rest of the text. -/
def gather (significand count : Nat) : List Char → Nat × Nat × List Char
  | [] => (significand, count, [])
  | c :: cs =>
    match Binary64.digitValue? c with
    | some d =>
      if 10 * significand + d ≤ significandLimit then
        gather (10 * significand + d) (count + 1) cs
      else (significand, count, c :: cs)
    | none => (significand, count, c :: cs)

/-- The exponent after its letter, scaling the significand gathered so far. -/
def readExponent? (negative : Bool) (significand : Nat) (exponent : Int) (cs : List Char) :
    Option (Json × List Char) :=
  let (minus, cs) := Binary64.leadingSign cs
  match Binary64.leadingDigits 0 cs with
  | (0, _, _) => none
  | (_, value, rest) =>
    if value < 0x80000000 then
      let exponent := if minus then exponent - value else exponent + value
      (scale negative significand exponent).map (·, rest)
    else if minus || significand = 0 then
      some (float (Binary64.ofMagnitude negative 0), rest)
    else none

/-- What may follow the digits of a number that is not an integer. -/
def readTail? (negative : Bool) (significand : Nat) (exponent : Int) (cs : List Char) :
    Option (Json × List Char) :=
  match cs with
  | 'e' :: cs => readExponent? negative significand exponent cs
  | 'E' :: cs => readExponent? negative significand exponent cs
  | cs => (scale negative significand exponent).map (·, cs)

/-- The digits after the point, of which there must be one. Those that do not fit are passed
over. -/
def readFraction? (negative : Bool) (significand : Nat) (exponent : Int) (cs : List Char) :
    Option (Json × List Char) :=
  let (gathered, count, rest) := gather significand 0 cs
  let (passed, _, rest) := Binary64.leadingDigits 0 rest
  if count + passed = 0 then none
  else readTail? negative gathered (exponent - count) rest

/-- A number that is written without point and exponent, and fits. -/
def integer (negative : Bool) (significand : Nat) : Json :=
  if negative then
    if 0 < significand && significand ≤ 0x8000000000000000 then int (-(significand : Int))
    else float (Binary64.ofInt significand).negate
  else int significand

/-- The rest of a number after its leading digits. -/
def readRest? (negative : Bool) (significand passed : Nat) (cs : List Char) :
    Option (Json × List Char) :=
  match cs with
  | '.' :: cs => readFraction? negative significand passed cs
  | 'e' :: cs => readExponent? negative significand passed cs
  | 'E' :: cs => readExponent? negative significand passed cs
  | cs =>
    if passed = 0 then some (integer negative significand, cs)
    else (scale negative significand passed).map (·, cs)

/-- A number without its sign. A leading zero stands alone. -/
def readUnsigned? (negative : Bool) : List Char → Option (Json × List Char)
  | '0' :: cs =>
    match cs.head?.bind Binary64.digitValue? with
    | some _ => none
    | none => readRest? negative 0 0 cs
  | cs =>
    let (significand, count, rest) := gather 0 0 cs
    if count = 0 then none
    else
      let (passed, _, rest) := Binary64.leadingDigits 0 rest
      readRest? negative significand passed rest

/-- Read a number at the front of a text. -/
def read? : List Char → Option (Json × List Char)
  | '-' :: cs => readUnsigned? true cs
  | cs => readUnsigned? false cs

end GraphPattern.Json.Number
