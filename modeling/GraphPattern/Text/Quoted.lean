import GraphPattern.Text.Unseen

/-!
# Quoted text

Text between quotation marks in which every character that cannot be seen by itself, or that would
end the quotation, is written as an escape.
-/

namespace GraphPattern.Text

/-- One character inside quotation marks. -/
def quoteChar (c : Char) : List Char :=
  if c = '"' then ['\\', '"']
  else if c = '\\' then ['\\', '\\']
  else if c = '\t' then ['\\', 't']
  else if c = '\n' then ['\\', 'n']
  else if c = '\r' then ['\\', 'r']
  else if c = '\x00' then ['\\', '0']
  else if isUnseen c then ['\\', 'u', '\x7b'] ++ Nat.toDigits 16 c.toNat ++ ['\x7d']
  else [c]

/-- The text between quotation marks. -/
def quoted (s : String) : String := String.ofList ('"' :: (s.toList.flatMap quoteChar ++ ['"']))

/-- A list of quoted texts. -/
def quotedList (xs : List String) : String := "[" ++ ", ".intercalate (xs.map quoted) ++ "]"

example : quotedList ["a", "b\"c\td"] = "[\"a\", \"b\\\"c\\td\"]" := by decide

end GraphPattern.Text
