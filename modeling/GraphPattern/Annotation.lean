import GraphPattern.Error

/-!
# Annotations and provenance markers

An annotation bounds how often its element occurs. When a repeated vertex has been merged into
another one, a provenance marker remembers the upper bound that is still to be enforced.
-/

namespace GraphPattern

/-- Bounds on a number of occurrences. -/
structure Annotation where
  /-- The least number allowed. -/
  min : Option Nat
  /-- The greatest number allowed. -/
  max : Option Nat
deriving DecidableEq, Inhabited

namespace Annotation

/-- An annotation with the given bounds, which must not be inverted. -/
def ofBounds (min max : Option Nat) : Except Error Annotation :=
  match min, max with
  | some lo, some hi => if hi < lo then refuseArgument (.boundsInverted lo hi) else pure ⟨min, max⟩
  | _, _ => pure ⟨min, max⟩

/-- Bounds that allow every number. -/
def unbounded : Annotation := ⟨none, none⟩

/-- Bounds from a least number upwards. -/
def atLeast (n : Nat) : Annotation := ⟨some n, none⟩

/-- Whether the element may be absent. -/
def isNegated (a : Annotation) : Bool := a.min = some 0

/-- Whether a number of occurrences is within the bounds. -/
def admits (a : Annotation) (count : Nat) : Bool :=
  a.min.getD 0 ≤ count && a.max.all (count ≤ ·)

/-- The text of a bound, empty where there is none. -/
def boundText (bound : Option Nat) : String := (bound.map toString).getD ""

/-- The text of the bounds. -/
def text (a : Annotation) : String := "[" ++ boundText a.min ++ ".." ++ boundText a.max ++ "]"

end Annotation

/-- The trace of a repeated vertex that was merged into another item. -/
structure Provenance where
  /-- The joined names of the merged vertex. -/
  source : String
  /-- The name whose occurrences the bound counts. -/
  item : String
  /-- The greatest number of occurrences allowed. -/
  max : Option Nat
deriving DecidableEq, Inhabited

namespace Provenance

/-- A marker; both of its names must be given. -/
def ofNames (source item : String) (max : Option Nat) : Except Error Provenance :=
  if source = "" || item = "" then refuseArgument .emptyProvenanceName else pure ⟨source, item, max⟩

/-- What a marker is about, apart from its bound. -/
def origin (p : Provenance) : String × String := (p.source, p.item)

end Provenance

end GraphPattern
