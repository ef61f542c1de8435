/-!
# Ordered lists, sets and maps

Sets are lists in increasing order without repetition, and maps are lists of entries in increasing
order of their keys. Both are read in that order wherever an answer shows it. Looking a key up
scans every entry, so the laws of look-up and insertion need no assumption about the order.
-/

namespace GraphPattern

/-- The elements of an ordered list together with `x`, which is not repeated. -/
def insertOrdered {α : Type u} [LT α] [DecidableLT α] [DecidableEq α] (x : α) : List α → List α
  | [] => [x]
  | y :: ys =>
    if x < y then x :: y :: ys
    else if x = y then y :: ys
    else y :: insertOrdered x ys

/-- The elements of a list in increasing order, each once. -/
def orderedSet {α : Type u} [LT α] [DecidableLT α] [DecidableEq α] (xs : List α) : List α :=
  xs.foldr insertOrdered []

theorem mem_insertOrdered {α : Type u} [LT α] [DecidableLT α] [DecidableEq α] {x y : α}
    {xs : List α} : y ∈ insertOrdered x xs ↔ y = x ∨ y ∈ xs := by
  induction xs with
  | nil => simp [insertOrdered]
  | cons z zs ih =>
    rw [insertOrdered]
    split
    · simp
    · split
      · rename_i hxz
        simp [hxz]
      · simp only [List.mem_cons,ih]
        exact or_left_comm

theorem mem_orderedSet {α : Type u} [LT α] [DecidableLT α] [DecidableEq α] {y : α}
    {xs : List α} : y ∈ orderedSet xs ↔ y ∈ xs := by
  induction xs with
  | nil => simp [orderedSet]
  | cons x xs ih =>
    rw [orderedSet] at ih ⊢
    rw [List.foldr_cons,mem_insertOrdered,ih,List.mem_cons]

theorem insertOrdered_idem {α : Type u} [LT α] [DecidableLT α] [DecidableEq α]
    [Std.Irrefl fun a b : α => a < b] (x : α) (xs : List α) :
    insertOrdered x (insertOrdered x xs) = insertOrdered x xs := by
  have hx : ¬x < x := Std.Irrefl.irrefl x
  induction xs with
  | nil => simp [insertOrdered, hx]
  | cons y ys ih =>
    rw [insertOrdered]
    split
    · simp [insertOrdered, hx]
    · split
      · rename_i hlt heq
        rw [← heq, insertOrdered, if_neg hx, if_pos rfl]
      · rename_i hlt hne
        simp [insertOrdered, hlt, hne, ih]

section Increasing

variable {α : Type u} [LT α] [DecidableLT α] [DecidableEq α]
variable [Trans (fun a b : α => a < b) (fun a b => a < b) (fun a b => a < b)]
variable [Std.Trichotomous fun a b : α => a < b]

theorem pairwise_insertOrdered {x : α} {xs : List α} (h : xs.Pairwise (· < ·)) :
    (insertOrdered x xs).Pairwise (· < ·) := by
  induction xs with
  | nil => simp [insertOrdered]
  | cons z zs ih =>
    obtain ⟨hz, hzs⟩ := List.pairwise_cons.mp h
    rw [insertOrdered]
    split
    · rename_i hxz
      refine List.pairwise_cons.mpr ⟨fun y hy => ?_, h⟩
      rcases List.mem_cons.mp hy with rfl | hy
      · exact hxz
      · exact (Trans.trans hxz (hz y hy) : x < y)
    · split
      · exact h
      · rename_i hxz hne
        refine List.pairwise_cons.mpr ⟨fun y hy => ?_, ih hzs⟩
        rcases mem_insertOrdered.mp hy with rfl | hy
        · by_cases hzx : z < y
          · exact hzx
          · exact absurd (Std.Trichotomous.trichotomous y z hxz hzx) hne
        · exact hz y hy

/-- The elements of a list come out strictly increasing. -/
theorem pairwise_orderedSet (xs : List α) : (orderedSet xs).Pairwise (· < ·) := by
  induction xs with
  | nil => exact List.Pairwise.nil
  | cons x xs ih => exact pairwise_insertOrdered ih

end Increasing

/-- Place `x` in front of the first element that does not come strictly before it. -/
def insertSorted {α : Type u} (before : α → α → Bool) (x : α) : List α → List α
  | [] => [x]
  | y :: ys => if before y x then y :: insertSorted before x ys else x :: y :: ys

/-- Sort by a strict order. Elements of equal rank keep the order in which they are given. -/
def sortBy {α : Type u} (before : α → α → Bool) (xs : List α) : List α :=
  xs.foldr (insertSorted before) []

/-- A finite map whose entries stand in increasing order of their keys. -/
structure OrderedMap (κ : Type u) (α : Type v) where
  /-- The entries, smallest key first. -/
  entries : List (κ × α)
deriving DecidableEq

namespace OrderedMap

variable {κ : Type u} {α : Type v}

/-- The map without entries. -/
def empty : OrderedMap κ α := ⟨[]⟩

instance : Inhabited (OrderedMap κ α) := ⟨empty⟩

/-- Whether the map has no entries. -/
def isEmpty (m : OrderedMap κ α) : Bool := m.entries.isEmpty

/-- The number of entries. -/
def size (m : OrderedMap κ α) : Nat := m.entries.length

/-- The keys in increasing order. -/
def keys (m : OrderedMap κ α) : List κ := m.entries.map Prod.fst

/-- The values, in the order of their keys. -/
def values (m : OrderedMap κ α) : List α := m.entries.map Prod.snd

section Keyed

variable [DecidableEq κ]

/-- The value of the first entry with the given key. -/
def findEntry (k : κ) : List (κ × α) → Option α
  | [] => none
  | e :: es => if e.1 = k then some e.2 else findEntry k es

/-- The value stored under a key. -/
def find? (m : OrderedMap κ α) (k : κ) : Option α := findEntry k m.entries

/-- Whether a key has a value. -/
def contains (m : OrderedMap κ α) (k : κ) : Bool := (m.find? k).isSome

/-- The map without the entry of a key. -/
def erase (m : OrderedMap κ α) (k : κ) : OrderedMap κ α := ⟨m.entries.filter (fun e => e.1 ≠ k)⟩

variable [LT κ] [DecidableLT κ]

/-- Put an entry in its place, replacing the entry of the same key. -/
def insertEntry (k : κ) (a : α) : List (κ × α) → List (κ × α)
  | [] => [(k, a)]
  | e :: es =>
    if k < e.1 then (k, a) :: e :: es
    else if k = e.1 then (k, a) :: es
    else e :: insertEntry k a es

/-- The map in which a key has the given value. -/
def insert (m : OrderedMap κ α) (k : κ) (a : α) : OrderedMap κ α := ⟨insertEntry k a m.entries⟩

/-- The map in which a key keeps its value, or has the given one if it had none. -/
def insertNew (m : OrderedMap κ α) (k : κ) (a : α) : OrderedMap κ α :=
  if m.contains k then m else m.insert k a

/-- The map of a list of entries; of two entries with one key the later counts. -/
def ofList (es : List (κ × α)) : OrderedMap κ α := es.foldl (fun m e => m.insert e.1 e.2) empty

theorem findEntry_insertEntry_self (k : κ) (a : α) (es : List (κ × α)) :
    findEntry k (insertEntry k a es) = some a := by
  induction es with
  | nil => simp [insertEntry, findEntry]
  | cons e es ih =>
    rw [insertEntry]
    split
    · simp [findEntry]
    · split
      · simp [findEntry]
      · rename_i hne
        simp [findEntry, Ne.symm hne, ih]

theorem findEntry_insertEntry_of_ne {k j : κ} (h : k ≠ j) (a : α) (es : List (κ × α)) :
    findEntry j (insertEntry k a es) = findEntry j es := by
  induction es with
  | nil => simp [insertEntry, findEntry, h]
  | cons e es ih =>
    rw [insertEntry]
    split
    · simp [findEntry, h]
    · split
      · rename_i heq
        simp [findEntry, h, ← heq]
      · simp [findEntry, ih]

@[simp] theorem find?_insert_self (m : OrderedMap κ α) (k : κ) (a : α) :
    (m.insert k a).find? k = some a :=
  findEntry_insertEntry_self k a m.entries

theorem find?_insert_of_ne (m : OrderedMap κ α) {k j : κ} (h : k ≠ j) (a : α) :
    (m.insert k a).find? j = m.find? j :=
  findEntry_insertEntry_of_ne h a m.entries

end Keyed

end OrderedMap

end GraphPattern
