/-!
# Blanks, comments and line ends

Blanks stand within a line and may be left out. A comment runs from a number sign to the end of its
line. A line ends with a line feed, in front of which a carriage return may stand.
-/

namespace GraphPattern.Settings.Document

/-- The text after the blanks at its front; a line end is not blank. -/
def skipBlanks (cs : List Char) : List Char := cs.dropWhile fun c => c = ' ' || c = '\t'

/-- Whether a character may stand in a comment or between quotation marks in one line: all but the
control characters, of which only the tabulator may. -/
def isAllowed (c : Char) : Bool := (0x20 ≤ c.toNat && c.toNat ≠ 0x7f) || c = '\t'

/-- The text after a comment, if there is one. -/
def skipComment : List Char → List Char
  | '#' :: cs => cs.dropWhile isAllowed
  | cs => cs

/-- The text after a line end at its front. -/
def lineBreak? : List Char → Option (List Char)
  | '\r' :: '\n' :: cs => some cs
  | '\n' :: cs => some cs
  | _ => none

/-- The text after the end of a line, which is also where the text ends. -/
def lineEnd? : List Char → Option (List Char)
  | [] => some []
  | cs => lineBreak? cs

/-- The text after the rest of a line, on which there is nothing but a comment. -/
def restOfLine? (cs : List Char) : Option (List Char) := lineEnd? (skipComment (skipBlanks cs))

/-- The text after blanks, comments and line ends. The first argument bounds the number of
lines. -/
def skipLines : Nat → List Char → List Char
  | 0, cs => cs
  | lines + 1, cs =>
    match restOfLine? cs with
    | some (c :: rest) => skipLines lines (c :: rest)
    | some [] => []
    | none => skipBlanks cs

end GraphPattern.Settings.Document
