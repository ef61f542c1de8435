import GraphPattern.Condition
import GraphPattern.Store

/-!
# Looking into the data

Objects, links and attributes are presented as tables in the order of identifiers.
-/

namespace GraphPattern

/-- What bears an attribute. -/
inductive SourceKind where
  /-- The objects. -/
  | object
  /-- The links. -/
  | link
deriving DecidableEq

namespace Store

/-- Whether attributes satisfy a condition, if there is one. -/
def admits (condition : Option Condition) (attributes : Attributes) : Bool :=
  condition.all fun c => c.holds attributes.find?

/-- The rows of the objects that satisfy a condition. -/
def objectRows (s : Store) (condition : Option Condition) : List (List Value) :=
  (s.objects.entries.filter fun e => admits condition e.2).map fun e => [.int e.1]

/-- The rows of the links that satisfy a condition. -/
def linkRows (s : Store) (condition : Option Condition) : List (List Value) :=
  (s.links.entries.filter fun e => admits condition e.2.attributes).map fun e =>
    [.int e.1, .int e.2.source, .int e.2.target]

/-- The attributes of all objects or of all links. -/
def bearers (s : Store) : SourceKind → List (Int × Attributes)
  | .object => s.objects.entries
  | .link => s.links.entries.map fun e => (e.1, e.2.attributes)

/-- The rows of the values of an attribute. What lacks the attribute has no row. -/
def attributeRows (s : Store) (kind : SourceKind) (attr : String) : List (List Value) :=
  (s.bearers kind).filterMap fun e =>
    ((e.2.find? attr).filter fun v => !v.isNull).map fun v => [.int e.1, v]

/-- The table of the objects that satisfy a condition. -/
def matchingObjects (condition : Option Condition) : StoreStep TableId := do
  insertTable ⟨[Column.objectId], (← get).objectRows condition⟩

/-- The table of the links that satisfy a condition. -/
def matchingLinks (condition : Option Condition) : StoreStep TableId := do
  insertTable ⟨[Column.linkId, Column.linkSource, Column.linkTarget], (← get).linkRows condition⟩

/-- The table of the values of an attribute. -/
def attributeValues (kind : SourceKind) (attr : String) : StoreStep TableId := do
  insertTable ⟨[Column.bearerId, Column.bearerValue], (← get).attributeRows kind attr⟩

end Store

end GraphPattern
