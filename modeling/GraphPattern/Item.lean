import GraphPattern.Annotation
import GraphPattern.Condition
import GraphPattern.Ordered

/-!
# Items

The vertices and edges of a query. A plain vertex is written by the user; a composite vertex stands
for a part of the query that has already been matched and carries the names of everything in it.
An edge remembers the vertex names it was written with, while its ends follow the vertices into
which the named ones are merged.
-/

namespace GraphPattern

/-- The class of an item. Items with the same names in different classes are different items. -/
inductive ItemClass where
  /-- A vertex written by the user. -/
  | vertex
  /-- A vertex that stands for matched items. -/
  | composite
  /-- An edge. -/
  | edge
deriving DecidableEq, Inhabited

namespace ItemClass

/-- The place of a class among the classes. -/
def rank : ItemClass → Nat
  | vertex => 0
  | composite => 1
  | edge => 2

/-- Whether items of the class may carry a provenance marker. -/
def bearsProvenance : ItemClass → Bool
  | vertex => false
  | _ => true

end ItemClass

/-- What only an edge has. -/
structure EdgeEnds where
  /-- The vertex at the first end, if it is known. -/
  source : Option ItemId
  /-- The vertex at the second end, if it is known. -/
  target : Option ItemId
  /-- The vertex name written for the first end. -/
  sourceName : String
  /-- The vertex name written for the second end. -/
  targetName : String
  /-- Whether the direction of a link matters. -/
  directed : Bool
deriving DecidableEq

namespace EdgeEnds

/-- Both ends, if both are known. -/
def both? (e : EdgeEnds) : Option (ItemId × ItemId) :=
  match e.source, e.target with
  | some a, some b => some (a, b)
  | _, _ => none

/-- The end opposite to a vertex, if the vertex is an end and both ends are known. -/
def opposite? (e : EdgeEnds) (vertex : ItemId) : Option ItemId :=
  match e.both? with
  | some (a, b) => if a = vertex then some b else if b = vertex then some a else none
  | none => none

/-- Whether both ends are the same vertex. -/
def isLoop (e : EdgeEnds) : Bool :=
  match e.both? with
  | some (a, b) => a = b
  | none => false

/-- The endpoint name that is among the given names, the first end before the second. -/
def nameAmong? (e : EdgeEnds) (names : List String) : Option String :=
  if e.sourceName ∈ names then some e.sourceName
  else if e.targetName ∈ names then some e.targetName
  else none

/-- The ends after everything at one vertex has been moved to another one. -/
def redirect (e : EdgeEnds) (old new : ItemId) : EdgeEnds :=
  { e with
    source := if e.source = some old then some new else e.source
    target := if e.target = some old then some new else e.target }

end EdgeEnds

/-- What an item is. -/
inductive ItemBody where
  /-- A vertex with the edges that end at it, smallest number first. -/
  | vertex (composite : Bool) (edges : List ItemId)
  /-- An edge. -/
  | edge (ends : EdgeEnds)
deriving DecidableEq

/-- A vertex or an edge. -/
structure Item where
  /-- The names in increasing order. Only composite vertices have more than one. -/
  names : List String
  /-- Vertex or edge. -/
  body : ItemBody
  /-- The filter on the objects or links that match. -/
  condition : Option Condition
  /-- The bounds on the number of matches. -/
  bounds : Option Annotation
  /-- The bound still owed for a repeated vertex that was merged into the item. -/
  provenance : Option Provenance
  /-- The container that owns the item, once it belongs to a query. -/
  container : Option ContainerId
deriving DecidableEq

/-- What tells one item from another when the contents of two queries are compared. -/
structure ItemIdentity where
  /-- The class. -/
  kind : ItemClass
  /-- The names in increasing order. -/
  names : List String
  /-- The origin of the provenance marker, for classes that bear one. -/
  origin : Option (String × String)
deriving DecidableEq

namespace Item

/-- An item that belongs to no query and carries nothing. -/
def bare (names : List String) (body : ItemBody) : Item := ⟨names, body, none, none, none, none⟩

/-- Refuse a name without characters. -/
def checkName (name : String) : Except Error Unit :=
  if name = "" then refuseArgument .emptyItemName else pure ()

/-- A new plain vertex. -/
def newVertex (name : String) : Except Error Item := do
  checkName name
  return bare [name] (.vertex false [])

/-- A new composite vertex with the given names, in any order and with repetitions. -/
def newComposite (names : List String) : Except Error Item := do
  names.forM checkName
  if names.isEmpty then refuseArgument .compositeWithoutNames
  return bare (orderedSet names) (.vertex true [])

/-- A new edge between the vertices of the given names. -/
def newEdge (name sourceName targetName : String) (directed : Bool) : Except Error Item := do
  checkName name
  if sourceName = "" || targetName = "" then refuseArgument (.emptyEndpointName name)
  return bare [name] (.edge ⟨none, none, sourceName, targetName, directed⟩)

/-- The first name. -/
def firstName (i : Item) : String := i.names.headD ""

/-- The names joined by points, by which plans and tables know the item. -/
def joinedName (i : Item) : String := ".".intercalate i.names

/-- Whether a name is one of the item's names. -/
def hasName (i : Item) (name : String) : Bool := name ∈ i.names

/-- The class of an item. -/
def kind (i : Item) : ItemClass :=
  match i.body with
  | .vertex true _ => .composite
  | .vertex false _ => .vertex
  | .edge _ => .edge

/-- Whether the item is a vertex, plain or composite. -/
def isVertex (i : Item) : Bool :=
  match i.body with
  | .vertex .. => true
  | .edge _ => false

/-- Whether the item is an edge. -/
def isEdge (i : Item) : Bool := !i.isVertex

/-- Whether the item is a composite vertex. -/
def isComposite (i : Item) : Bool := i.kind = .composite

/-- Whether the item is annotated. -/
def isAnnotated (i : Item) : Bool := i.bounds.isSome

/-- Whether the item carries a provenance marker. -/
def isMarked (i : Item) : Bool := i.provenance.isSome

/-- Whether the item is annotated as one that may be absent. -/
def isNegated (i : Item) : Bool := i.bounds.any Annotation.isNegated

/-- The edges that end at a vertex. -/
def edges? (i : Item) : Option (List ItemId) :=
  match i.body with
  | .vertex _ edges => some edges
  | .edge _ => none

/-- The ends of an edge. -/
def ends? (i : Item) : Option EdgeEnds :=
  match i.body with
  | .vertex .. => none
  | .edge ends => some ends

/-- What the item is compared by. -/
def identity (i : Item) : ItemIdentity :=
  ⟨i.kind, i.names, if i.kind.bearsProvenance then i.provenance.map Provenance.origin else none⟩

/-- Replace the provenance marker. A plain vertex cannot carry one. -/
def withProvenance (i : Item) (marker : Option Provenance) : Except Error Item :=
  if marker.isSome && !i.kind.bearsProvenance then refuseState (.markerOnPlainVertex i.joinedName)
  else pure { i with provenance := marker }

/-- Add names to a composite vertex. -/
def withNames (i : Item) (names : List String) : Except Error Item :=
  if i.kind = .composite then pure { i with names := orderedSet (i.names ++ names) }
  else refuseState (.namesOnPlainItem i.joinedName)

/-- Record an edge that ends at the vertex. -/
def attach (edge : ItemId) (i : Item) : Item :=
  match i.body with
  | .vertex composite edges => { i with body := .vertex composite (insertOrdered edge edges) }
  | .edge _ => i

/-- Forget an edge that ended at the vertex. -/
def detach (edge : ItemId) (i : Item) : Item :=
  match i.body with
  | .vertex composite edges => { i with body := .vertex composite (edges.filter (· ≠ edge)) }
  | .edge _ => i

/-- Change the ends of an edge. -/
def mapEnds (f : EdgeEnds → EdgeEnds) (i : Item) : Item :=
  match i.body with
  | .vertex .. => i
  | .edge ends => { i with body := .edge (f ends) }

/-- The text of an item. -/
def text (i : Item) : String :=
  let label :=
    match i.body with
    | .vertex true _ => "\x7b" ++ i.joinedName ++ "\x7d"
    | .vertex false _ => i.firstName
    | .edge e =>
      let arrow := if e.directed then "->" else "--"
      s!"{i.firstName}({e.sourceName} {arrow} {e.targetName})"
  let bounds := (i.bounds.map Annotation.text).getD ""
  let star := if i.isMarked then "*" else ""
  label ++ bounds ++ star

end Item

end GraphPattern
