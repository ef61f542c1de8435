import GraphPattern.Json.Number

/-!
# Reading JSON text

The text must be one document and nothing else. Strings hold no raw control characters and no half
of a surrogate pair, and lists and objects are nested at most 127 deep.
-/

namespace GraphPattern.Json.Reader

/-- The deepest nesting that is read. -/
def depthLimit : Nat := 127

/-- The text after the blanks at its front. -/
def skipBlanks : List Char → List Char
  | c :: cs => if c = ' ' || c = '\n' || c = '\t' || c = '\r' then skipBlanks cs else c :: cs
  | [] => []

/-- The value of a hexadecimal digit. -/
def hexValue? (c : Char) : Option Nat :=
  if '0' ≤ c && c ≤ '9' then some (c.toNat - '0'.toNat)
  else if 'a' ≤ c && c ≤ 'f' then some (c.toNat - 'a'.toNat + 10)
  else if 'A' ≤ c && c ≤ 'F' then some (c.toNat - 'A'.toNat + 10)
  else none

/-- The value of four hexadecimal digits. -/
def unit? (a b c d : Char) : Option Nat := do
  let a ← hexValue? a
  let b ← hexValue? b
  let c ← hexValue? c
  let d ← hexValue? d
  return ((a * 16 + b) * 16 + c) * 16 + d

/-- The character of a pair of surrogates. -/
def pair? (high low : Nat) : Option Char :=
  if 0xd800 ≤ high && high ≤ 0xdbff && 0xdc00 ≤ low && low ≤ 0xdfff then
    some (Char.ofNat (0x10000 + (high - 0xd800) * 0x400 + (low - 0xdc00)))
  else none

/-- The character of an escape of one letter. -/
def letter? : Char → Option Char
  | '"' => some '"'
  | '\\' => some '\\'
  | '/' => some '/'
  | 'b' => some '\x08'
  | 'f' => some '\x0c'
  | 'n' => some '\n'
  | 'r' => some '\r'
  | 't' => some '\t'
  | _ => none

/-- The characters of a string up to its closing mark, and the rest of the text. -/
def characters? : List Char → Option (List Char × List Char)
  | [] => none
  | '"' :: cs => some ([], cs)
  | '\\' :: 'u' :: a :: b :: c :: d :: cs =>
    match unit? a b c d with
    | none => none
    | some u =>
      if u < 0xd800 || 0xdfff < u then
        (characters? cs).map fun (text, rest) => (Char.ofNat u :: text, rest)
      else
        match cs with
        | '\\' :: 'u' :: e :: f :: g :: h :: cs =>
          match (unit? e f g h).bind (pair? u) with
          | none => none
          | some ch => (characters? cs).map fun (text, rest) => (ch :: text, rest)
        | _ => none
  | '\\' :: c :: cs =>
    match letter? c with
    | none => none
    | some ch => (characters? cs).map fun (text, rest) => (ch :: text, rest)
  | c :: cs =>
    if c.toNat < 0x20 || c = '\\' then none
    else (characters? cs).map fun (text, rest) => (c :: text, rest)

/-- A string after its opening mark. -/
def string? (cs : List Char) : Option (String × List Char) :=
  (characters? cs).map fun (text, rest) => (String.ofList text, rest)

mutual

/-- A document at the front of a text, with `depth` levels of nesting left. The first argument
bounds the number of steps. -/
def value? : Nat → Nat → List Char → Option (Json × List Char)
  | 0, _, _ => none
  | fuel + 1, depth, cs =>
    match skipBlanks cs with
    | 'n' :: 'u' :: 'l' :: 'l' :: rest => some (null, rest)
    | 't' :: 'r' :: 'u' :: 'e' :: rest => some (bool true, rest)
    | 'f' :: 'a' :: 'l' :: 's' :: 'e' :: rest => some (bool false, rest)
    | '"' :: rest => (string? rest).map fun (s, rest) => (string s, rest)
    | '[' :: rest =>
      match depth with
      | 0 => none
      | depth + 1 =>
        match skipBlanks rest with
        | ']' :: rest => some (array [], rest)
        | rest => (elements? fuel depth rest).map fun (es, rest) => (array es, rest)
    | '\x7b' :: rest =>
      match depth with
      | 0 => none
      | depth + 1 =>
        match skipBlanks rest with
        | '\x7d' :: rest => some (object [], rest)
        | rest => (members? fuel depth rest).map fun (ms, rest) => (object ms, rest)
    | rest => Number.read? rest

/-- The elements of a list, of which there is one at least, and its closing mark. -/
def elements? : Nat → Nat → List Char → Option (List Json × List Char)
  | 0, _, _ => none
  | fuel + 1, depth, cs =>
    match value? fuel depth cs with
    | none => none
    | some (element, rest) =>
      match skipBlanks rest with
      | ']' :: rest => some ([element], rest)
      | ',' :: rest => (elements? fuel depth rest).map fun (es, rest) => (element :: es, rest)
      | _ => none

/-- The members of an object, of which there is one at least, and its closing mark. -/
def members? : Nat → Nat → List Char → Option (List (String × Json) × List Char)
  | 0, _, _ => none
  | fuel + 1, depth, cs =>
    match skipBlanks cs with
    | '"' :: rest =>
      match string? rest with
      | none => none
      | some (key, rest) =>
        match skipBlanks rest with
        | ':' :: rest =>
          match value? fuel depth rest with
          | none => none
          | some (element, rest) =>
            match skipBlanks rest with
            | '\x7d' :: rest => some ([(key, element)], rest)
            | ',' :: rest =>
              (members? fuel depth rest).map fun (ms, rest) => ((key, element) :: ms, rest)
            | _ => none
        | _ => none
    | _ => none

end

/-- Read a text that is one document. Every step takes a character at least, or opens a document
that does. -/
def read? (s : String) : Option Json :=
  let cs := s.toList
  match value? (2 * cs.length + 2) depthLimit cs with
  | some (document, rest) => if (skipBlanks rest).isEmpty then some document else none
  | none => none

end GraphPattern.Json.Reader
