import GraphPattern.Binary64

/-!
# Decimal text of floating-point numbers

Reading takes a decimal numeral to the nearest number. Writing uses the fewest digits that read
back to the same number and, of those, the digits nearest to it; a rule says which ones to take when
two are equally near. The point is always written in place, never with an exponent.
-/

namespace GraphPattern.Binary64

/-- The value of an ASCII digit. -/
def digitValue? (c : Char) : Option Nat :=
  if '0' ≤ c && c ≤ '9' then some (c.toNat - '0'.toNat) else none

/-- Read the digits at the front of a text: their count, `value` continued by them, the rest. -/
def leadingDigits (value : Nat) : List Char → Nat × Nat × List Char
  | [] => (0, value, [])
  | c :: cs =>
    match digitValue? c with
    | some d =>
      let (count, total, rest) := leadingDigits (10 * value + d) cs
      (count + 1, total, rest)
    | none => (0, value, c :: cs)

/-- A power of ten. -/
def powerOfTen (n : Nat) : Nat := Nat.pow 10 n

/-- The number nearest to `digits * 10 ^ exponent`. Exponents far out of range are answered
without computing the power. -/
def ofDecimal (negative : Bool) (digits : Nat) (exponent : Int) : Binary64 :=
  let places : Int := digits.log2 / 3 + 1
  if digits = 0 then ofMagnitude negative 0
  else if 400 < exponent then infinity negative
  else if exponent + places < -400 then ofMagnitude negative 0
  else if 0 ≤ exponent then ofRatio negative (digits * powerOfTen exponent.toNat) 1
  else ofRatio negative digits (powerOfTen (-exponent).toNat)

/-- A sign at the front of a text, and whether it is a minus. -/
def leadingSign : List Char → Bool × List Char
  | '-' :: cs => (true, cs)
  | '+' :: cs => (false, cs)
  | cs => (false, cs)

/-- The exponent that ends a numeral; an empty text is the exponent zero. -/
def readExponent? : List Char → Option Int
  | [] => some 0
  | c :: cs =>
    if c = 'e' || c = 'E' then
      let (negative, cs) := leadingSign cs
      match leadingDigits 0 cs with
      | (0, _, _) => none
      | (_, value, []) => some (if negative then -(value : Int) else value)
      | _ => none
    else none

/-- A numeral without its sign: digits, an optional point with digits after it, an optional
exponent. At least one digit must stand before or after the point. -/
def readUnsigned? (negative : Bool) (cs : List Char) : Option Binary64 :=
  let (whole, value, rest) := leadingDigits 0 cs
  let (places, digits, rest) :=
    match rest with
    | '.' :: rest => leadingDigits value rest
    | rest => (0, value, rest)
  if whole + places = 0 then none
  else (readExponent? rest).map fun e => ofDecimal negative digits (e - places)

/-- Read a floating-point numeral, or one of the names of infinity and of no number in either
letter case. -/
def read? (s : String) : Option Binary64 :=
  let (negative, cs) := leadingSign s.toList
  let word := String.ofList (cs.map Char.toLower)
  if word = "inf" || word = "infinity" then some (infinity negative)
  else if word = "nan" then some (notANumber negative)
  else readUnsigned? negative cs

/-- The bounds of the quotients that round to a positive finite number, in units of a quarter of
its last place; the bounds themselves round to it exactly when its significand is even. -/
def roundingInterval (x : Binary64) : Nat × Nat :=
  let (units, exponent) := x.significand
  let low := if units = fractionLimit && -1074 < exponent then 4 * units - 1 else 4 * units - 2
  (low, 4 * units + 2)

/-- Which of two neighbouring numerals is taken when a number lies halfway between them. -/
inductive Tie where
  /-- The one farther from zero. -/
  | upper
  /-- The one whose last digit is even. -/
  | even
deriving DecidableEq

/-- Whether the lower one of two neighbours is taken, given what is missing to the number from below
and to the upper neighbour from the number. -/
def Tie.takesLower (tie : Tie) (lower fromLower toUpper : Nat) : Bool :=
  fromLower < toUpper || (fromLower = toUpper && tie = .even && lower % 2 = 0)

/-- The multiple of `10 ^ place` that reads back to the number, the nearer one if there are two;
the rule decides if both are equally near. -/
def digitsAt? (tie : Tie) (x : Binary64) (place : Int) : Option Nat :=
  let (units, exponent) := x.significand
  let (low, high) := x.roundingInterval
  let quarter := exponent - 2
  -- a quotient `q` in quarters and a multiple `d` of the place compare as `q * scale` and
  -- `d * step`
  let scale := (if 0 ≤ quarter then 1 <<< quarter.toNat else 1) *
    (if 0 ≤ place then 1 else powerOfTen (-place).toNat)
  let step := (if 0 ≤ quarter then 1 else 1 <<< (-quarter).toNat) *
    (if 0 ≤ place then powerOfTen place.toNat else 1)
  let value := 4 * units * scale
  let inside := fun d =>
    if units % 2 = 0 then low * scale ≤ d * step && d * step ≤ high * scale
    else low * scale < d * step && d * step < high * scale
  let below := value / step
  let above := below + 1
  match inside below, inside above with
  | true, true =>
    some (if tie.takesLower below (value - below * step) (above * step - value) then below
      else above)
  | true, false => some below
  | false, true => some above
  | false, false => none

/-- The first of several places, counted downwards, at which some multiple reads back. -/
def firstPlace (tie : Tie) (x : Binary64) (place : Int) : Nat → Nat × Int
  | 0 => (0, place)
  | fuel + 1 =>
    match x.digitsAt? tie place with
    | some d => (d, place)
    | none => firstPlace tie x (place - 1) fuel

/-- The number of decimal places in front of the point, negative for small numbers: `k` such that
the number is below `10 ^ k` and not below `10 ^ (k - 1)`. -/
def decimalExponent (x : Binary64) : Int :=
  let (num, den) := x.toRatio
  ((Nat.toDigits 10 (num * powerOfTen 400 / den)).length : Int) - 400

/-- Drop the zeros at the end of a digit string, counting them into the place. -/
def trimZeros (digits : List Char) (place : Int) : List Char × Int :=
  let kept := (digits.reverse.dropWhile (· = '0')).reverse
  (kept, place + (digits.length - kept.length : Nat))

/-- Write digits whose last one stands at the given place. -/
def positional (digits : List Char) (place : Int) : List Char :=
  if 0 ≤ place then digits ++ List.replicate place.toNat '0'
  else
    let fraction := (-place).toNat
    if fraction < digits.length then
      digits.take (digits.length - fraction) ++ '.' :: digits.drop (digits.length - fraction)
    else '0' :: '.' :: (List.replicate (fraction - digits.length) '0' ++ digits)

/-- The fewest digits that read back to a positive finite number, without zeros at the end, and
the place of the last one. Seventeen digits always suffice. -/
def shortestDigits (tie : Tie) (x : Binary64) : List Char × Int :=
  let (digits, place) := firstPlace tie x (x.decimalExponent - 1) 17
  trimZeros (Nat.toDigits 10 digits) place

/-- The text of a positive finite number. Of two equally near numerals the upper one is written. -/
def positiveText (x : Binary64) : List Char :=
  let (digits, place) := x.shortestDigits .upper
  positional digits place

/-- The text of a number. -/
def text (x : Binary64) : String :=
  if x.isNaN then "NaN"
  else
    let sign := if x.isNegative then ['-'] else []
    let body :=
      if x.isInfinite then ['i', 'n', 'f']
      else if x.magnitude = 0 then ['0']
      else positiveText x
    String.ofList (sign ++ body)

end GraphPattern.Binary64
