import GraphPattern.Json

/-!
# Writing JSON text

The same document can be written in one line without blanks, or on indented lines.
-/

namespace GraphPattern.Json.Printer

/-- The digit of a number below sixteen. -/
def hexDigit (n : Nat) : Char := Nat.digitChar n

/-- A character inside a string. -/
def escape (c : Char) : List Char :=
  if c = '"' then ['\\', '"']
  else if c = '\\' then ['\\', '\\']
  else if c = '\x08' then ['\\', 'b']
  else if c = '\x0c' then ['\\', 'f']
  else if c = '\n' then ['\\', 'n']
  else if c = '\r' then ['\\', 'r']
  else if c = '\t' then ['\\', 't']
  else if c.toNat < 0x20 then
    ['\\', 'u', '0', '0', hexDigit (c.toNat / 16), hexDigit (c.toNat % 16)]
  else [c]

/-- A string with its marks. -/
def stringText (s : String) : String := String.ofList ('"' :: (s.toList.flatMap escape ++ ['"']))

/-- Digits whose last one stands at the given place, with one digit in front of the point and an
exponent. -/
def scientific (digits : List Char) (place : Int) : List Char :=
  let fraction :=
    match digits.drop 1 with
    | [] => []
    | rest => '.' :: rest
  digits.take 1 ++ fraction ++ 'e' :: (toString (place + digits.length - 1)).toList

/-- A positive number. Numbers from `10 ^ (-5)` to `10 ^ 16` have a point and no exponent. Of two
equally near numerals the one with an even last digit is written. -/
def positiveText (x : Binary64) : List Char :=
  let (digits, place) := x.shortestDigits .even
  let point := place + digits.length
  if -5 < point && point ≤ 16 then
    Binary64.positional digits place ++ if 0 ≤ place then ['.', '0'] else []
  else scientific digits place

/-- A finite floating-point number. There are no marks for the others, which are written as
null. -/
def floatText (x : Binary64) : String :=
  if x.isNaN || x.isInfinite then "null"
  else
    let sign := if x.isNegative then ['-'] else []
    String.ofList (sign ++ if x.magnitude = 0 then ['0', '.', '0'] else positiveText x)

-- halfway between two numerals: an even last digit here, the upper one in text for people
example : floatText ⟨0x3f872d0000000000⟩ = "0.011316299438476562" := by decide +kernel
example : Binary64.text ⟨0x3f872d0000000000⟩ = "0.011316299438476563" := by decide +kernel

mutual

/-- A document in one line. -/
def compact : Json → String
  | null => "null"
  | bool b => if b then "true" else "false"
  | int i => toString i
  | float x => floatText x
  | string s => stringText s
  | array elements => "[" ++ ",".intercalate (compactElements elements) ++ "]"
  | object members => "\x7b" ++ ",".intercalate (compactMembers members) ++ "\x7d"

/-- The elements of a list, each in one line. -/
def compactElements : List Json → List String
  | [] => []
  | element :: elements => compact element :: compactElements elements

/-- The members of an object, each in one line. -/
def compactMembers : List (String × Json) → List String
  | [] => []
  | (key, element) :: members =>
    (stringText key ++ ":" ++ compact element) :: compactMembers members

end

/-- Lines of a list or an object between its marks, one level to the right of `indent`. -/
def block (opening closing : String) (indent : String) (entries : List String) : String :=
  match entries with
  | [] => opening ++ closing
  | entries =>
    opening ++ "\n" ++ ",\n".intercalate (entries.map fun e => indent ++ "  " ++ e) ++ "\n" ++
      indent ++ closing

mutual

/-- A document on indented lines; the first line is not indented. -/
def pretty (indent : String) : Json → String
  | array elements => block "[" "]" indent (prettyElements (indent ++ "  ") elements)
  | object members => block "\x7b" "\x7d" indent (prettyMembers (indent ++ "  ") members)
  | null => "null"
  | bool b => if b then "true" else "false"
  | int i => toString i
  | float x => floatText x
  | string s => stringText s

/-- The elements of a list on indented lines. -/
def prettyElements (indent : String) : List Json → List String
  | [] => []
  | element :: elements => pretty indent element :: prettyElements indent elements

/-- The members of an object on indented lines. -/
def prettyMembers (indent : String) : List (String × Json) → List String
  | [] => []
  | (key, element) :: members =>
    (stringText key ++ ": " ++ pretty indent element) :: prettyMembers indent members

end

end GraphPattern.Json.Printer
