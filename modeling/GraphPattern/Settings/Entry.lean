import GraphPattern.Binary64.Decimal

/-!
# Values and statements of a settings document

A value stands behind a key, in a list or in a table. No setting holds a text, a number with a
fraction or a moment, yet a list may end in values that nobody asks for.
-/

namespace GraphPattern.Settings

/-- A value. -/
inductive Entry where
  /-- A truth value. -/
  | bool (b : Bool)
  /-- An integer. -/
  | int (i : Int)
  /-- A floating-point number. -/
  | float (x : Binary64)
  /-- A text. -/
  | text (s : String)
  /-- A date, a time of day, or a date with a time, as it is written. -/
  | moment (written : String)
  /-- A list. -/
  | list (entries : List Entry)
  /-- A table in one line. Its keys are paths. -/
  | table (entries : List (List String × Entry))

/-- A line that says something. -/
inductive Statement where
  /-- The statements that follow belong to the section of this path. -/
  | header (path : List String)
  /-- A path has a value. -/
  | assign (path : List String) (value : Entry)

/-- Whether one table can have values at all the paths: none of them ends at another one or leads
through it. -/
def arePathsApart : List (List String) → Bool
  | [] => true
  | path :: paths =>
    paths.all (fun other => !path.isPrefixOf other && !other.isPrefixOf path) &&
      arePathsApart paths

end GraphPattern.Settings
