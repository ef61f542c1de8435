/-!
# Slots that are never used again

A store of numbered values. Adding a value gives it the next number; removing one leaves its slot
empty for good, so that a number keeps its meaning for as long as the store is edited.
-/

namespace GraphPattern

/-- Numbered slots, some of them emptied. -/
structure Arena (α : Type u) where
  /-- The slots in the order in which they were added. -/
  slots : List (Option α)
deriving DecidableEq

namespace Arena

variable {α : Type u}

/-- The store without slots. -/
def empty : Arena α := ⟨[]⟩

instance : Inhabited (Arena α) := ⟨empty⟩

/-- The number that the next added value gets. -/
def next (s : Arena α) : Nat := s.slots.length

/-- The value in a slot, if the slot exists and has not been emptied. -/
def get? (s : Arena α) (i : Nat) : Option α := s.slots[i]?.join

/-- Add a value in a slot of its own. -/
def push (s : Arena α) (a : α) : Arena α := ⟨s.slots ++ [some a]⟩

/-- Change the value of a slot; an empty slot stays empty. -/
def modify (s : Arena α) (i : Nat) (f : α → α) : Arena α := ⟨s.slots.modify i (Option.map f)⟩

/-- Empty a slot for good. -/
def erase (s : Arena α) (i : Nat) : Arena α := ⟨s.slots.set i none⟩

/-- The values still held, in the order of their slots. -/
def live (s : Arena α) : List α := s.slots.filterMap id

/-- The values still held, each with the number of its slot. -/
def indexed (s : Arena α) : List (Nat × α) :=
  s.slots.zipIdx.filterMap fun e => e.1.map (e.2, ·)

@[simp] theorem next_push (s : Arena α) (a : α) : (s.push a).next = s.next + 1 := by
  simp [push, next]

@[simp] theorem next_modify (s : Arena α) (i : Nat) (f : α → α) :
    (s.modify i f).next = s.next := by
  simp [modify, next]

@[simp] theorem next_erase (s : Arena α) (i : Nat) : (s.erase i).next = s.next := by
  simp [erase, next]

theorem get?_push_next (s : Arena α) (a : α) : (s.push a).get? s.next = some a := by
  simp [push, get?, next]

theorem get?_push_of_ne (s : Arena α) (a : α) {i : Nat} (h : i ≠ s.next) :
    (s.push a).get? i = s.get? i := by
  simp only [push, get?, next] at h ⊢
  by_cases hlt : i < s.slots.length
  · rw [List.getElem?_append_left hlt]
  · rw [List.getElem?_eq_none (by simp; omega), List.getElem?_eq_none (by omega)]

theorem get?_modify (s : Arena α) (i j : Nat) (f : α → α) :
    (s.modify i f).get? j = if i = j then (s.get? j).map f else s.get? j := by
  simp only [modify, get?, List.getElem?_modify]
  split <;> cases s.slots[j]? <;> simp

theorem get?_erase (s : Arena α) (i j : Nat) :
    (s.erase i).get? j = if i = j then none else s.get? j := by
  simp only [erase, get?, List.getElem?_set]
  split
  · split <;> simp_all
  · rfl

theorem mem_indexed {s : Arena α} {i : Nat} {a : α} :
    (i, a) ∈ s.indexed ↔ s.get? i = some a := by
  simp only [indexed, get?, List.mem_filterMap, Option.map_eq_some_iff, Prod.mk.injEq]
  constructor
  · rintro ⟨⟨slot, j⟩, hm, b, hb, rfl, rfl⟩
    rw [List.mem_zipIdx_iff_getElem?] at hm
    simp only at hb hm
    rw [hm, hb, Option.join_some]
  · intro h
    rw [Option.join_eq_some_iff] at h
    exact ⟨(some a, i), List.mem_zipIdx_iff_getElem?.mpr h, a, rfl, rfl, rfl⟩

theorem mem_live {s : Arena α} {a : α} : a ∈ s.live ↔ ∃ i, s.get? i = some a := by
  simp only [live, get?, List.mem_filterMap, id_eq, exists_eq_right, Option.join_eq_some_iff]
  exact List.mem_iff_getElem?

end Arena

end GraphPattern
