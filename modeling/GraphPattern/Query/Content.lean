import GraphPattern.Query.View
import GraphPattern.Xxh64

/-!
# The content of a query

Two queries have the same content when their items agree by class, names and provenance, when they
have equally many subqueries and when they declare the same constraints. Numbers, owners,
annotations of items and the order of insertion do not count. The content is a value of its own, so
that having the same content is equality.
-/

namespace GraphPattern

/-- What counts when two queries are compared. -/
structure Content where
  /-- The live items, by joined names and then by class. -/
  items : List ItemIdentity
  /-- The number of subqueries. -/
  subqueries : Nat
  /-- The texts of the constraints in increasing order. -/
  constraints : List String
deriving DecidableEq

namespace ItemClass

/-- The letter of a class. -/
def tag : ItemClass → String
  | vertex => "v"
  | composite => "c"
  | edge => "e"

end ItemClass

namespace ItemIdentity

/-- The bytes that stand for an item in a fingerprint. A byte that occurs in no text ends it. -/
def bytes (i : ItemIdentity) : List UInt8 :=
  let names := i.names.flatMap fun name => name.toUTF8.toList ++ [0]
  let origin :=
    match i.origin with
    | some (source, item) => source.toUTF8.toList ++ 0 :: item.toUTF8.toList
    | none => []
  i.kind.tag.toUTF8.toList ++ names ++ origin ++ [0xff]

end ItemIdentity

namespace Content

/-- The eight bytes of a number, the lowest first. -/
def wordBytes (n : Nat) : List UInt8 :=
  (List.range 8).map fun place => (n >>> (8 * place)).toUInt8

/-- The bytes that stand for a content. -/
def bytes (c : Content) : List UInt8 :=
  c.items.flatMap ItemIdentity.bytes ++ wordBytes c.subqueries ++
    c.constraints.flatMap fun text => text.toUTF8.toList ++ [0]

/-- A hash of the content. -/
def fingerprint (c : Content) : UInt64 := Xxh64.hash 0 c.bytes

end Content

namespace Query

/-- Whether one item is listed before another: by joined names, then by class. -/
def listedBefore (a b : String × Item) : Bool :=
  a.1 < b.1 || (a.1 = b.1 && a.2.kind.rank < b.2.kind.rank)

/-- The live items in the order in which contents list them. -/
def sortedItems (q : Query) : List Item :=
  (sortBy listedBefore (q.items.live.map fun item => (item.joinedName, item))).map Prod.snd

/-- The content of a query. -/
def content (q : Query) : Content :=
  ⟨q.sortedItems.map Item.identity, (q.subqueries .whole).length,
    sortBy (· < ·) ((q.constraints .whole).map Constraint.text)⟩

/-- Whether two queries have the same content. -/
def sameContent (p q : Query) : Bool := p.content = q.content

/-- A hash of the content of a query; queries with the same content share it. -/
def fingerprint (q : Query) : UInt64 := q.content.fingerprint

theorem fingerprint_eq_of_sameContent {p q : Query} (h : p.sameContent q = true) :
    p.fingerprint = q.fingerprint := by
  simp only [sameContent, decide_eq_true_eq] at h
  rw [fingerprint, fingerprint, h]

end Query

end GraphPattern
