import GraphPattern.Binary64.Decimal

/-!
# Dates and times

A date exists in the calendar in which every fourth year is a leap year, but of the full centuries
only every fourth. A time of day has seconds, of which a minute may have one more than sixty, and
may have a fraction of a second. Behind a date and a time an offset may stand.
-/

namespace GraphPattern.Settings.Document

/-- The number that two digits write. -/
def twoDigits? (a b : Char) : Option Nat := do
  return 10 * (← Binary64.digitValue? a) + (← Binary64.digitValue? b)

/-- Whether a year has a day more. -/
def isLeapYear (year : Nat) : Bool := year % 4 = 0 && (year % 100 ≠ 0 || year % 400 = 0)

/-- The number of days of a month. -/
def daysInMonth (year month : Nat) : Nat :=
  if month = 2 then if isLeapYear year then 29 else 28
  else if month = 4 || month = 6 || month = 9 || month = 11 then 30
  else 31

/-- The text after a date. -/
def afterDate? : List Char → Option (List Char)
  | a :: b :: c :: d :: '-' :: e :: f :: '-' :: g :: h :: rest => do
    let year := 100 * (← twoDigits? a b) + (← twoDigits? c d)
    let month ← twoDigits? e f
    let day ← twoDigits? g h
    if 1 ≤ month && month ≤ 12 && 1 ≤ day && day ≤ daysInMonth year month then some rest else none
  | _ => none

/-- The text after hours and minutes. -/
def afterMinutes? : List Char → Option (List Char)
  | a :: b :: ':' :: c :: d :: rest => do
    if (← twoDigits? a b) < 24 && (← twoDigits? c d) < 60 then some rest else none
  | _ => none

/-- The text after a fraction of a second, if there is one. -/
def afterFraction? : List Char → Option (List Char)
  | '.' :: c :: cs => if c.isDigit then some (cs.dropWhile Char.isDigit) else none
  | ['.'] => none
  | cs => some cs

/-- The text after a time of day. -/
def afterTime? (cs : List Char) : Option (List Char) := do
  match ← afterMinutes? cs with
  | ':' :: a :: b :: rest => if (← twoDigits? a b) ≤ 60 then afterFraction? rest else none
  | _ => none

/-- Whether a text is the offset of a time from the universal one. -/
def isOffset : List Char → Bool
  | ['Z'] => true
  | ['z'] => true
  | sign :: cs => (sign = '+' || sign = '-') && afterMinutes? cs = some []
  | [] => false

/-- Whether a text is a date. -/
def isDate (cs : List Char) : Bool := afterDate? cs = some []

/-- Whether a text is a time of day. -/
def isTime (cs : List Char) : Bool := afterTime? cs = some []

/-- Whether a text is a time of day behind which an offset may stand. -/
def isTimeWithOffset (cs : List Char) : Bool :=
  match afterTime? cs with
  | some rest => rest.isEmpty || isOffset rest
  | none => false

/-- Whether a text is a date, a time of day, or a date and a time with a letter or a blank between
them. -/
def isMoment (cs : List Char) : Bool :=
  isTime cs ||
    match afterDate? cs with
    | some [] => true
    | some (c :: rest) => (c = 'T' || c = 't' || c = ' ') && isTimeWithOffset rest
    | none => false

example : ["1979-05-27", "07:32:00", "1979-05-27T07:32:00.5Z", "2000-02-29 23:59:60-01:00"].all
    fun s => isMoment s.toList := by
  decide +kernel
example : ["1900-02-29", "2000-13-01", "07:32", "24:00:00", "07:32:00Z", "1979-05-27T07:32"].any
    (fun s => isMoment s.toList) = false := by
  decide +kernel

end GraphPattern.Settings.Document
