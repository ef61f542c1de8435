import GraphPattern.Binary64.Decimal
import GraphPattern.Text.Blank

/-!
# Values

The scalars that attributes, table cells and constants hold. Two notions of sameness are kept
apart. Equality of values as data decides grouping and joining: it tells integers from
floating-point numbers and negative zero from zero, and finds a pattern that is no number equal to
itself. `Value.compare?` is the order that conditions and constraints ask about: it compares
numbers of either kind and answers nothing for values of unlike kinds.
-/

namespace GraphPattern

/-- A scalar. -/
inductive Value where
  /-- No value. -/
  | null
  /-- A truth value. -/
  | bool (b : Bool)
  /-- An integer of 64 bits. -/
  | int (i : Int)
  /-- A floating-point number. -/
  | float (x : Binary64)
  /-- A text. -/
  | string (s : String)
deriving DecidableEq, Inhabited

/-- Whether an integer fits into 64 bits with a sign. -/
def isInt64 (i : Int) : Bool := -0x8000000000000000 ≤ i && i < 0x8000000000000000

/-- Read an integer of 64 bits: an optional sign and decimal digits, nothing else. -/
def readInt64? (s : String) : Option Int :=
  let (negative, cs) := Binary64.leadingSign s.toList
  match Binary64.leadingDigits 0 cs with
  | (0, _, _) => none
  | (_, value, []) =>
    let i : Int := if negative then -(value : Int) else value
    if isInt64 i then some i else none
  | _ => none

namespace Value

/-- The value that a raw text stands for. Blanks around it are ignored while numbers and truth
values are recognised; any other text is kept as it is. -/
def infer (raw : String) : Value :=
  let trimmed := Text.trim raw
  if trimmed = "" then null
  else
    match readInt64? trimmed with
    | some i => int i
    | none =>
      match Binary64.read? trimmed with
      | some x => float x
      | none =>
        if trimmed = "true" then bool true
        else if trimmed = "false" then bool false
        else string raw

/-- The order of two values, if they are comparable. -/
def compare? : Value → Value → Option Ordering
  | bool a, bool b => some (compare a b)
  | int a, int b => some (compare a b)
  | int a, float b => (Binary64.ofInt a).compare? b
  | float a, int b => a.compare? (Binary64.ofInt b)
  | float a, float b => a.compare? b
  | string a, string b => some (compare a b)
  | _, _ => none

/-- The integer that a value holds. -/
def asInt? : Value → Option Int
  | int i => some i
  | _ => none

/-- The text that a value holds. -/
def asString? : Value → Option String
  | string s => some s
  | _ => none

/-- Whether there is no value. -/
def isNull : Value → Bool
  | null => true
  | _ => false

/-- Whether two values of one kind are equal, floating-point numbers by the numbers they stand
for. -/
def sameValue : Value → Value → Bool
  | float a, float b => a.sameValue b
  | a, b => a = b

/-- The place of a value's kind among the kinds. -/
def kindRank : Value → Nat
  | null => 0
  | bool _ => 1
  | int _ => 2
  | float _ => 3
  | string _ => 4

/-- A total order of values as data: by kind, then by content, floating-point numbers by their
bits. -/
def compareData : Value → Value → Ordering
  | bool a, bool b => compare a b
  | int a, int b => compare a b
  | float a, float b => compare a.bits b.bits
  | string a, string b => compare a b
  | a, b => compare a.kindRank b.kindRank

/-- The text of a value. Strings stand between quotation marks and are not escaped. -/
def text : Value → String
  | null => "null"
  | bool b => if b then "true" else "false"
  | int i => toString i
  | float x => x.text
  | string s => "\"" ++ s ++ "\""

example : infer " 42 " = int 42 := by decide
example : infer "true " = bool true := by decide
example : infer " person " = string " person " := by decide

end Value

end GraphPattern
