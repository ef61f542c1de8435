/-!
# Identifiers

Items, containers, tables, search states and search edges are numbered in the order of their
creation. Each kind of number has a type of its own and a text of its own.
-/

namespace GraphPattern

/-- The number of a vertex or an edge of a query. -/
structure ItemId where
  /-- Position in the order of creation, from zero. -/
  index : Nat
deriving DecidableEq, Inhabited

/-- The number of a query's root or of one of its subqueries. -/
structure ContainerId where
  /-- Position in the order of creation; the root is zero. -/
  index : Nat
deriving DecidableEq, Inhabited

/-- The number of a temporary table. -/
structure TableId where
  /-- Position in the order of creation, from one. -/
  index : Nat
deriving DecidableEq, Inhabited

/-- The number of a state of a search. -/
structure StateId where
  /-- Position in the order of discovery; the start is zero. -/
  index : Nat
deriving DecidableEq, Inhabited

/-- The number of an edge between states of a search. -/
structure StepId where
  /-- Position in the order of discovery, from zero. -/
  index : Nat
deriving DecidableEq, Inhabited

namespace ItemId

instance : LT ItemId := ⟨fun a b => a.index < b.index⟩

instance : DecidableLT ItemId := fun a b => inferInstanceAs (Decidable (a.index < b.index))

instance : Trans (fun a b : ItemId => a < b) (fun a b => a < b) (fun a b => a < b) :=
  ⟨fun {_ _ _} h i => Nat.lt_trans h i⟩

instance : Std.Irrefl fun a b : ItemId => a < b := ⟨fun a => Nat.lt_irrefl a.index⟩

instance : Std.Trichotomous fun a b : ItemId => a < b :=
  ⟨fun _ _ h i => congrArg mk (Nat.le_antisymm (Nat.le_of_not_lt i) (Nat.le_of_not_lt h))⟩

/-- The text of an item's number. -/
def text (i : ItemId) : String := s!"#{i.index}"

end ItemId

namespace ContainerId

/-- The container that encloses all others. -/
def root : ContainerId := ⟨0⟩

/-- The text of a container's number. -/
def text (c : ContainerId) : String := s!"@{c.index}"

end ContainerId

namespace TableId

instance : LT TableId := ⟨fun a b => a.index < b.index⟩

instance : DecidableLT TableId := fun a b => inferInstanceAs (Decidable (a.index < b.index))

/-- The text of a table's number. -/
def text (t : TableId) : String := s!"t{t.index}"

end TableId

namespace StateId

/-- The state from which a search sets out. -/
def start : StateId := ⟨0⟩

/-- The text of a state's number. -/
def text (s : StateId) : String := s!"s{s.index}"

end StateId

end GraphPattern
