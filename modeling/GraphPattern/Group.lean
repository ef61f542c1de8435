/-!
# Grouping

Elements are collected under their keys. The groups stand in the order in which their keys first
occur, and every group keeps the order of its elements.
-/

namespace GraphPattern

variable {κ : Type u} {α : Type v} [DecidableEq κ]

/-- The elements collected under a key. -/
def groupOf (k : κ) : List (κ × List α) → List α
  | [] => []
  | g :: gs => if g.1 = k then g.2 else groupOf k gs

/-- Collect elements under their keys. -/
def groups : List (κ × α) → List (κ × List α)
  | [] => []
  | e :: es =>
    let rest := groups es
    (e.1, e.2 :: groupOf e.1 rest) :: rest.filter (fun g => g.1 ≠ e.1)

theorem groupOf_filter_ne {j k : κ} (h : j ≠ k) (gs : List (κ × List α)) :
    groupOf k (gs.filter (fun g => g.1 ≠ j)) = groupOf k gs := by
  induction gs with
  | nil => rfl
  | cons g gs ih =>
    simp only [ne_eq, decide_not] at ih ⊢
    by_cases hj : g.1 = j
    · simp [hj, groupOf, ih, h]
    · simp [hj, groupOf, ih]

/-- The group of a key holds the elements that come with the key, in their order. -/
theorem groupOf_groups (k : κ) (es : List (κ × α)) :
    groupOf k (groups es) = (es.filter (fun e => e.1 = k)).map Prod.snd := by
  induction es with
  | nil => rfl
  | cons e es ih =>
    by_cases hk : e.1 = k
    · simp [groups, groupOf, hk, ih]
    · simp only [groups, groupOf, hk, if_false, List.filter_cons, decide_false]
      rw [groupOf_filter_ne hk, ih]
      simp

end GraphPattern
