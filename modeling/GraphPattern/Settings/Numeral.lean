import GraphPattern.Json.Reader
import GraphPattern.Value

/-!
# Numbers of a settings document

An integer is decimal, or hexadecimal, octal or binary behind a prefix, and fits 64 bits. A
floating-point number has digits after a point or an exponent, or is one of the two names; written
in digits it may be too small, but positive ones may not be too large.
-/

namespace GraphPattern.Settings.Document

/-- Digits of a base in which single underscores may stand between digits. -/
def digits? (base : Nat) (cs : List Char) : Option Nat :=
  let value? := fun c => (Json.Reader.hexValue? c).filter (· < base)
  let rec go (value : Nat) (afterDigit : Bool) : List Char → Option Nat
    | [] => if afterDigit then some value else none
    | '_' :: cs => if afterDigit then go value false cs else none
    | c :: cs => (value? c).bind fun d => go (value * base + d) true cs
  go 0 false cs

/-- An integer without prefix: no zero stands in front of other digits. -/
def decimal? (cs : List Char) : Option Nat :=
  match cs with
  | ['0'] => some 0
  | '0' :: _ => none
  | cs => digits? 10 cs

/-- An integer of 64 bits. -/
def int? (cs : List Char) : Option Int := do
  let i : Int ←
    match cs with
    | '0' :: 'x' :: cs => (digits? 16 cs).map Int.ofNat
    | '0' :: 'o' :: cs => (digits? 8 cs).map Int.ofNat
    | '0' :: 'b' :: cs => (digits? 2 cs).map Int.ofNat
    | '+' :: cs => (decimal? cs).map Int.ofNat
    | '-' :: cs => (decimal? cs).map fun n => -(n : Int)
    | cs => (decimal? cs).map Int.ofNat
  if isInt64 i then some i else none

/-- Whether a character may stand in the digits of a decimal number. -/
def inDigits (c : Char) : Bool := c.isDigit || c = '_'

/-- Whether a text is the exponent of a number. -/
def isExponent : List Char → Bool
  | c :: cs => (c = 'e' || c = 'E') && (digits? 10 (Binary64.leadingSign cs).2).isSome
  | [] => false

/-- Whether a text has the form of a number without sign that has a fraction or an exponent. -/
def isScientific (cs : List Char) : Bool :=
  (decimal? (cs.takeWhile inDigits)).isSome &&
    match cs.dropWhile inDigits with
    | '.' :: rest =>
      (digits? 10 (rest.takeWhile inDigits)).isSome &&
        (let exponent := rest.dropWhile inDigits
         exponent.isEmpty || isExponent exponent)
    | rest => isExponent rest

/-- A floating-point number. -/
def float? (cs : List Char) : Option Binary64 :=
  let (negative, unsigned) := Binary64.leadingSign cs
  if unsigned = ['i', 'n', 'f'] then some (Binary64.infinity negative)
  else if unsigned = ['n', 'a', 'n'] then some (Binary64.notANumber negative)
  else if isScientific unsigned then
    (Binary64.read? (String.ofList (cs.filter (· ≠ '_')))).filter (· ≠ Binary64.infinity false)
  else none

end GraphPattern.Settings.Document
