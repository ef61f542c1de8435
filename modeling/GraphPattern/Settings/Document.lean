import GraphPattern.Settings.Entry
import GraphPattern.Settings.Moment
import GraphPattern.Settings.Numeral
import GraphPattern.Settings.Quotation

/-!
# Settings documents

A settings document has a statement on each line: the header of a section, or a key with a value.
Values are truth values, numbers, texts, moments, lists and tables in one line. Comments run to the
end of a line.
-/

namespace GraphPattern.Settings.Document

/-- The deepest nesting of values, and the largest number of keys in a path. -/
def depthLimit : Nat := 79

/-- Whether a character may stand in a key without quotation marks. -/
def inBareKey (c : Char) : Bool := c.isAlphanum || c = '_' || c = '-'

/-- A simple key: bare, or in quotation marks of either kind. -/
def simpleKey? : List Char → Option (String × List Char)
  | '"' :: cs => lineText? '"' cs
  | '\x27' :: cs => lineText? '\x27' cs
  | cs =>
    match cs.takeWhile inBareKey with
    | [] => none
    | key => some (String.ofList key, cs.dropWhile inBareKey)

/-- A path of keys with points between them. The first argument bounds the number of keys. -/
def path? : Nat → List Char → Option (List String × List Char)
  | 0, _ => none
  | keys + 1, cs => do
    let (key, rest) ← simpleKey? (skipBlanks cs)
    match skipBlanks rest with
    | '.' :: rest =>
      let (others, rest) ← path? keys rest
      return (key :: others, rest)
    | rest => return ([key], rest)

/-- Whether a character may stand in a word. -/
def inWord (c : Char) : Bool :=
  c.isAlphanum || c = '_' || c = '+' || c = '-' || c = '.' || c = ':'

/-- The word at the front of a text, and the rest. A date and a word behind one space are one
word. -/
def word (cs : List Char) : List Char × List Char :=
  let first := cs.takeWhile inWord
  match cs.dropWhile inWord with
  | ' ' :: c :: rest =>
    if isDate first && inWord c then
      (first ++ ' ' :: (c :: rest).takeWhile inWord, (c :: rest).dropWhile inWord)
    else (first, ' ' :: c :: rest)
  | rest => (first, rest)

/-- The value that a word stands for. -/
def ofWord? (w : List Char) : Option Entry :=
  let written := String.ofList w
  if written = "true" then some (.bool true)
  else if written = "false" then some (.bool false)
  else if isMoment w then some (.moment written)
  else ((int? w).map .int).or ((float? w).map .float)

/-- A value that holds no others at the front of a text. -/
def scalar? : List Char → Option (Entry × List Char)
  | '"' :: cs => (text? '"' cs).map fun (s, rest) => (.text s, rest)
  | '\x27' :: cs => (text? '\x27' cs).map fun (s, rest) => (.text s, rest)
  | cs =>
    let (w, rest) := word cs
    (ofWord? w).map fun e => (e, rest)

/-- The elements of a list and its closing mark, each read by `inner?`. A comma may stand behind
the last one. The number bounds how many there are. -/
def elements? (inner? : List Char → Option (Entry × List Char)) :
    Nat → List Char → Option (List Entry × List Char)
  | 0, _ => none
  | count + 1, cs =>
    match skipLines cs.length cs with
    | ']' :: rest => some ([], rest)
    | rest => do
      let (first, rest) ← inner? rest
      match skipLines rest.length rest with
      | ']' :: rest => return ([first], rest)
      | ',' :: rest =>
        let (others, rest) ← elements? inner? count rest
        return (first :: others, rest)
      | _ => none

/-- The members of a table, of which there is one at least, and its closing mark. Each value is
read by `inner?`. The number bounds how many there are. -/
def members? (inner? : List Char → Option (Entry × List Char)) :
    Nat → List Char → Option (List (List String × Entry) × List Char)
  | 0, _ => none
  | count + 1, cs => do
    let (path, rest) ← path? depthLimit cs
    match rest with
    | '=' :: rest =>
      let (value, rest) ← inner? rest
      match skipBlanks rest with
      | '\x7d' :: rest => return ([(path, value)], rest)
      | ',' :: rest =>
        let (others, rest) ← members? inner? count rest
        return ((path, value) :: others, rest)
      | _ => none
    | _ => none

/-- A table after its opening mark. -/
def table? (inner? : List Char → Option (Entry × List Char)) (cs : List Char) :
    Option (Entry × List Char) :=
  match skipBlanks cs with
  | '\x7d' :: rest => some (.table [], rest)
  | rest => do
    let (members, rest) ← members? inner? rest.length rest
    if arePathsApart (members.map Prod.fst) then some (.table members, rest) else none

/-- A value at the front of a text. The first argument bounds the nesting of lists and tables. -/
def value? : Nat → List Char → Option (Entry × List Char)
  | 0, cs => scalar? (skipBlanks cs)
  | depth + 1, cs =>
    match skipBlanks cs with
    | '[' :: rest =>
      (elements? (value? depth) rest.length rest).map fun (es, rest) => (.list es, rest)
    | '\x7b' :: rest => table? (value? depth) rest
    | rest => scalar? rest

/-- A statement at the front of a text, with the rest of its line. -/
def statement? (cs : List Char) : Option (Statement × List Char) :=
  match cs with
  | '[' :: rest => do
    let (path, rest) ← path? depthLimit rest
    match rest with
    | ']' :: rest => return (.header path, ← restOfLine? rest)
    | _ => none
  | _ => do
    let (path, rest) ← path? depthLimit cs
    match rest with
    | '=' :: rest =>
      let (value, rest) ← value? depthLimit rest
      return (.assign path value, ← restOfLine? rest)
    | _ => none

/-- The statements of a text. The first argument bounds their number. -/
def statements? : Nat → List Char → Option (List Statement)
  | 0, cs => if cs.isEmpty then some [] else none
  | fuel + 1, cs =>
    match skipLines cs.length cs with
    | [] => some []
    | rest => do
      let (first, rest) ← statement? rest
      let others ← statements? fuel rest
      return first :: others

/-- The statements of a document, in front of which there may be a byte order mark. -/
def read? (text : String) : Option (List Statement) :=
  let cs :=
    match text.toList with
    | '\ufeff' :: cs => cs
    | cs => cs
  statements? cs.length cs

end GraphPattern.Settings.Document
