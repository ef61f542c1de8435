/-!
# Comma-separated rows

Fields are separated by commas and rows by a carriage return, a line feed or both. A field that
begins with a quotation mark runs to the next single one; two marks stand for one. Rows without any
character are skipped, rows may have any number of fields, and a quotation that is never closed
runs to the end.
-/

namespace GraphPattern.Csv

/-- Where in a row the next byte stands. -/
inductive Place where
  /-- No byte of the row has been read. -/
  | rowStart
  /-- A field begins. -/
  | fieldStart
  /-- Inside a field or after a quotation. -/
  | field
  /-- Inside a quotation. -/
  | quotation
  /-- After a mark inside a quotation. -/
  | mark
deriving DecidableEq

/-- What has been read. Every list has its last element first. -/
structure Progress where
  /-- Where the next byte stands. -/
  place : Place
  /-- The bytes of the current field. -/
  field : List UInt8
  /-- The fields of the current row before the current one. -/
  fields : List (List UInt8)
  /-- The rows before the current one. -/
  rows : List (List (List UInt8))

/-- A quotation mark. -/
def markByte : UInt8 := 34

/-- The comma between fields. -/
def commaByte : UInt8 := 44

/-- Whether a byte ends a row. -/
def endsRow (b : UInt8) : Bool := b = 10 || b = 13

namespace Progress

/-- Before the first byte. -/
def start : Progress := ⟨.rowStart, [], [], []⟩

/-- A byte belongs to the field. -/
def keep (p : Progress) (place : Place) (b : UInt8) : Progress :=
  { p with place := place, field := b :: p.field }

/-- The field ends and another one begins. -/
def endField (p : Progress) : Progress :=
  ⟨.fieldStart, [], p.field.reverse :: p.fields, p.rows⟩

/-- The field and the row end. -/
def endRow (p : Progress) : Progress :=
  ⟨.rowStart, [], [], (p.field.reverse :: p.fields).reverse :: p.rows⟩

/-- A byte outside a quotation. -/
def plain (p : Progress) (b : UInt8) : Progress :=
  if b = commaByte then p.endField
  else if endsRow b then p.endRow
  else p.keep .field b

/-- Read a byte. -/
def read (p : Progress) (b : UInt8) : Progress :=
  match p.place with
  | .rowStart =>
    if endsRow b then p
    else if b = markByte then { p with place := .quotation }
    else p.plain b
  | .fieldStart => if b = markByte then { p with place := .quotation } else p.plain b
  | .field => p.plain b
  | .quotation => if b = markByte then { p with place := .mark } else p.keep .quotation b
  | .mark => if b = markByte then p.keep .quotation b else p.plain b

/-- The rows once every byte has been read. -/
def finish (p : Progress) : List (List (List UInt8)) :=
  match p.place with
  | .rowStart => p.rows.reverse
  | _ => p.endRow.rows.reverse

end Progress

/-- The bytes without the mark that some programs put in front of text. -/
def dropByteOrderMark : List UInt8 → List UInt8
  | 0xef :: 0xbb :: 0xbf :: bytes => bytes
  | bytes => bytes

/-- The rows of a file, each a list of fields. -/
def rows (bytes : List UInt8) : List (List (List UInt8)) :=
  ((dropByteOrderMark bytes).foldl Progress.read .start).finish

end GraphPattern.Csv
