import GraphPattern.Json.Reader
import GraphPattern.Settings.Layout

/-!
# Texts in quotation marks

The mark is the quotation mark or the apostrophe, single for a text in one line and threefold for
one in several lines. Between quotation marks a backslash introduces an escape; between apostrophes
every character stands for itself.
-/

namespace GraphPattern.Settings.Document

/-- The character of an escape made of hexadecimal digits. -/
def escapedChar? (digits : List Char) : Option Char := do
  let values ← digits.mapM Json.Reader.hexValue?
  let code := values.foldl (fun n d => n * 16 + d) 0
  if h : code.isValidChar then some (Char.ofNatAux code h) else none

/-- The character of an escape of one letter. -/
def escapeLetter? (c : Char) : Option Char := if c = '/' then none else Json.Reader.letter? c

/-- The text that stands between quotation marks, its escapes resolved. In several lines a
backslash at the end of a line takes the blanks and line ends behind it away; the flag `joining`
says that this is going on. -/
def unescape? (multiline joining : Bool) : List Char → Option (List Char)
  | [] => some []
  | ['\\'] => none
  | '\\' :: 'u' :: a :: b :: c :: d :: cs => do
    let escaped ← escapedChar? [a, b, c, d]
    return escaped :: (← unescape? multiline false cs)
  | '\\' :: 'U' :: a :: b :: c :: d :: e :: f :: g :: h :: cs => do
    let escaped ← escapedChar? [a, b, c, d, e, f, g, h]
    return escaped :: (← unescape? multiline false cs)
  | '\\' :: c :: cs =>
    match escapeLetter? c with
    | some escaped => (unescape? multiline false cs).map (escaped :: ·)
    | none =>
      if multiline && (lineBreak? (skipBlanks (c :: cs))).isSome then unescape? multiline true cs
      else none
  | '\r' :: '\n' :: cs =>
    if joining then unescape? multiline true cs
    else if multiline then (unescape? multiline false cs).map ('\n' :: ·)
    else none
  | c :: cs =>
    if joining && (c = ' ' || c = '\t' || c = '\n') then unescape? multiline true cs
    else if isAllowed c || (multiline && c = '\n') then
      (unescape? multiline false cs).map (c :: ·)
    else none

/-- The text that stands between apostrophes. -/
def verbatim? (multiline : Bool) : List Char → Option (List Char)
  | [] => some []
  | '\r' :: '\n' :: cs => if multiline then (verbatim? multiline cs).map ('\n' :: ·) else none
  | c :: cs =>
    if isAllowed c || (multiline && c = '\n') then (verbatim? multiline cs).map (c :: ·) else none

/-- Between these marks a backslash introduces an escape. -/
def hasEscapes (mark : Char) : Bool := mark = '"'

/-- What stands between marks of a kind, as it is written. -/
def content? (mark : Char) (multiline : Bool) (cs : List Char) : Option String :=
  (if hasEscapes mark then unescape? multiline false cs else verbatim? multiline cs).map
    String.ofList

/-- A text in one line up to its closing mark, and the rest. -/
def splitAtMark? (mark : Char) : List Char → Option (List Char × List Char)
  | [] => none
  | [c] => if c = mark then some ([], []) else none
  | c :: d :: cs =>
    if c = mark then some ([], d :: cs)
    else if c = '\\' && hasEscapes mark then
      (splitAtMark? mark cs).map fun (text, rest) => (c :: d :: text, rest)
    else (splitAtMark? mark (d :: cs)).map fun (text, rest) => (c :: text, rest)

/-- A text in several lines up to its closing marks, and the rest. One or two marks in front of the
closing ones belong to the text. -/
def splitAtMarks? (mark : Char) : List Char → Option (List Char × List Char)
  | c :: d :: e :: cs =>
    if c = mark && d = mark && e = mark then
      let inner := (cs.takeWhile (· = mark)).take 2
      some (inner, cs.drop inner.length)
    else if c = '\\' && hasEscapes mark then
      (splitAtMarks? mark (e :: cs)).map fun (text, rest) => (c :: d :: text, rest)
    else (splitAtMarks? mark (d :: e :: cs)).map fun (text, rest) => (c :: text, rest)
  | _ => none

/-- A text in one line after its opening mark. -/
def lineText? (mark : Char) (cs : List Char) : Option (String × List Char) := do
  let (written, rest) ← splitAtMark? mark cs
  return (← content? mark false written, rest)

/-- A text in several lines after its opening marks. A line end right behind them does not belong
to it. -/
def blockText? (mark : Char) (cs : List Char) : Option (String × List Char) := do
  let (written, rest) ← splitAtMarks? mark ((lineBreak? cs).getD cs)
  return (← content? mark true written, rest)

/-- A text of either kind after its first mark. -/
def text? (mark : Char) : List Char → Option (String × List Char)
  | c :: d :: cs =>
    if c = mark && d = mark then blockText? mark cs else lineText? mark (c :: d :: cs)
  | cs => lineText? mark cs

end GraphPattern.Settings.Document
