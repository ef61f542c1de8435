/-!
# Trees by parents

Numbered places, each with a parent. A place that is its own parent is the root of a tree. Two trees
become one when the root of one is put below the root of the other; there are no ranks, so a tree
may grow high. On the way from a place up to its root every second place is put below the parent of
its parent, which halves the way for the next search.
-/

namespace GraphPattern

/-- Trees of numbered places. -/
structure Forest (n : Nat) where
  /-- The parent of each place. -/
  parents : Vector (Fin n) n
  /-- The level of each place. No search reads it: it is the reason why every search ends. -/
  level : Fin n → Nat
  /-- A parent is on a lower level than the places below it. -/
  falls : ∀ i : Fin n, parents[i] ≠ i → level parents[i] < level i

namespace Forest

variable {n : Nat} {f : Forest n} {a b i k r : Fin n} {g : Fin n → Fin n}
  {links : List (Fin n × Fin n)}

/-- The parent of a place; that of a root is the root itself. -/
def parent (f : Forest n) (i : Fin n) : Fin n := f.parents[i]

/-- Every place by itself. -/
def single (n : Nat) : Forest n where
  parents := .ofFn id
  level _ := 0
  falls i h := absurd (by simp) h

theorem level_parent (h : f.parent i ≠ i) : f.level (f.parent i) < f.level i := f.falls i h

/-- Above a place that is no root is also the parent of its parent. -/
theorem level_parent_parent (h : f.parent i ≠ i) : f.level (f.parent (f.parent i)) < f.level i := by
  by_cases hp : f.parent (f.parent i) = f.parent i
  · rw [hp]
    exact level_parent h
  · exact Nat.lt_trans (level_parent hp) (level_parent h)

/-- Put a place below the parent of its parent. -/
def halve (f : Forest n) (i : Fin n) : Forest n where
  parents := f.parents.set i (f.parent (f.parent i))
  level := f.level
  falls k := by
    rw [Fin.getElem_fin,Vector.getElem_set]
    split
    · rename_i hk
      obtain rfl : i = k := Fin.ext hk
      intro h
      exact level_parent_parent fun hr => h (by rw [hr,hr])
    · exact f.falls k

/-- Put a place below a root. -/
def hang (f : Forest n) (i r : Fin n) (hr : f.parent r = r) : Forest n where
  parents := f.parents.set i r
  level k := if k = r then 0 else f.level k + 1
  falls k := by
    rw [Fin.getElem_fin,Vector.getElem_set]
    split
    · -- The root has moved below everything else.
      intro h
      rw [if_pos rfl,if_neg (Ne.symm h)]
      exact Nat.succ_pos _
    · intro h
      have hk : k ≠ r := fun hk => h (hk ▸ hr)
      rw [if_neg hk]
      split
      · exact Nat.succ_pos _
      · exact Nat.succ_lt_succ (f.falls k h)

theorem parent_single (i : Fin n) : (single n).parent i = i := by
  simp [parent,single]

theorem parent_halve (f : Forest n) (i k : Fin n) :
    (f.halve i).parent k = if i = k then f.parent (f.parent i) else f.parent k := by
  simp only [parent,halve,Fin.getElem_fin,Vector.getElem_set,Fin.ext_iff]

theorem parent_hang (hr : f.parent r = r) (i k : Fin n) :
    (f.hang i r hr).parent k = if i = k then r else f.parent k := by
  simp only [parent,hang,Fin.getElem_fin,Vector.getElem_set,Fin.ext_iff]

/-- A root that was searched for, and what the trees are afterwards. -/
structure Found (n : Nat) where
  /-- The root. -/
  root : Fin n
  /-- The trees after the search. -/
  forest : Forest n

/-- Search for the root above a place. -/
def find (f : Forest n) (i : Fin n) : Found n :=
  if f.parent i = i then ⟨i,f⟩ else (f.halve i).find ((f.halve i).parent i)
termination_by f.level i
decreasing_by
  rw [parent_halve,if_pos rfl]
  exact level_parent_parent ‹_›

/-- A search leaves the roots what they are. -/
theorem parent_find_of_root (i : Fin n) (h : f.parent r = r) : (f.find i).forest.parent r = r := by
  fun_induction find f i with
  | case1 => exact h
  | case2 f i hi ih =>
    refine ih ?_
    rw [parent_halve,if_neg fun he : i = r => hi (he ▸ h)]
    exact h

/-- A search ends at a root. -/
theorem parent_find_root (f : Forest n) (i : Fin n) :
    (f.find i).forest.parent (f.find i).root = (f.find i).root := by
  fun_induction find f i with
  | case1 f i hi => exact hi
  | case2 f i hi ih => exact ih

/-- Join the trees of two places: the root of the second one goes below the root of the first. -/
def join (f : Forest n) (a b : Fin n) : Forest n :=
  let first := f.find a
  let second := first.forest.find b
  if first.root = second.root then second.forest
  else second.forest.hang second.root first.root
    (parent_find_of_root b (parent_find_root f a))

/-- Join the trees of pairs of places, one pair after another. -/
def joinAll (f : Forest n) (links : List (Fin n × Fin n)) : Forest n :=
  links.foldl (fun f link => f.join link.1 link.2) f

/-- The roots above some places, searched for one after another. -/
def roots (f : Forest n) : List (Fin n) → List (Fin n)
  | [] => []
  | i :: is => (f.find i).root :: (f.find i).forest.roots is

/-! ## Roots

The root above a place is what following its parents leads to. A search changes parents but no root,
so it leaves no trace. Joining two places gives the places of the second tree the root of the first
and leaves all others; places come to have one root if a chain of joins leads from one to the other,
and only then.
-/

/-- The root above a place. -/
def root (f : Forest n) (i : Fin n) : Fin n :=
  if f.parent i = i then i else f.root (f.parent i)
termination_by f.level i
decreasing_by exact level_parent ‹_›

theorem root_of_parent_eq (h : f.parent i = i) : f.root i = i := by
  rw [root,if_pos h]

theorem root_parent (f : Forest n) (i : Fin n) : f.root (f.parent i) = f.root i := by
  by_cases h : f.parent i = i
  · rw [h]
  · exact (by rw [root,if_neg h] : f.root i = f.root (f.parent i)).symm

/-- What parents carry over and what is right at the roots is the root everywhere. -/
theorem root_eq_of (hroot : ∀ {k}, f.parent k = k → g k = k)
    (hparent : ∀ k, g (f.parent k) = g k) (i : Fin n) : f.root i = g i := by
  fun_induction root f i with
  | case1 i h => exact (hroot h).symm
  | case2 i h ih => exact ih.trans (hparent i)

theorem root_single (i : Fin n) : (single n).root i = i :=
  root_of_parent_eq (parent_single i)

/-! ## Searches -/

/-- Halving the way up from a place changes no root. -/
theorem root_halve (f : Forest n) (i k : Fin n) : (f.halve i).root k = f.root k := by
  refine root_eq_of (fun {k} hk => ?_) (fun k => ?_) k
  · rw [parent_halve] at hk
    split at hk
    · rename_i hik
      subst hik
      -- Only a root is the parent of its parent.
      refine root_of_parent_eq (Classical.byContradiction fun h => ?_)
      have hlt := level_parent_parent h
      rw [hk] at hlt
      exact Nat.lt_irrefl _ hlt
    · exact root_of_parent_eq hk
  · rw [parent_halve]
    split
    · rename_i hik
      rw [root_parent,root_parent,hik]
    · exact root_parent f k

/-- A search changes no root. -/
theorem root_forest_find (f : Forest n) (i k : Fin n) :
    (f.find i).forest.root k = f.root k := by
  fun_induction find f i with
  | case1 f i h => rfl
  | case2 f i h ih => rw [ih,root_halve]

/-- A search finds the root. -/
theorem find_root (f : Forest n) (i : Fin n) : (f.find i).root = f.root i := by
  fun_induction find f i with
  | case1 f i h => exact (root_of_parent_eq h).symm
  | case2 f i h ih => rw [ih,root_parent,root_halve]

/-- Searches one after another find the roots. -/
theorem roots_eq (f : Forest n) (is : List (Fin n)) : f.roots is = is.map f.root := by
  induction is generalizing f with
  | nil => rfl
  | cons i is ih =>
    rw [roots,ih,find_root,List.map_cons]
    exact congrArg _ (List.map_congr_left fun k _ => root_forest_find f i k)

/-! ## Joins -/

/-- With a root below another one its tree has that root. -/
theorem root_hang (hr : f.parent r = r) (hi : f.parent i = i) (hne : i ≠ r) (k : Fin n) :
    (f.hang i r hr).root k = if f.root k = i then r else f.root k := by
  refine root_eq_of (g := fun k => if f.root k = i then r else f.root k) (fun {k} hk => ?_)
    (fun k => ?_) k
  · rw [parent_hang] at hk
    split at hk
    · rename_i hik
      exact absurd (hik.trans hk.symm) hne
    · rename_i hik
      rw [root_of_parent_eq hk,if_neg (Ne.symm hik)]
  · simp only [parent_hang]
    split
    · rename_i hik
      rw [← hik,root_of_parent_eq hr,root_of_parent_eq hi,if_pos rfl,if_neg (Ne.symm hne)]
    · rw [root_parent]

/-- Joining two places gives the tree of the second one the root of the first. -/
theorem root_join (f : Forest n) (a b k : Fin n) :
    (f.join a b).root k = if f.root k = f.root b then f.root a else f.root k := by
  have hkept : ∀ k, ((f.find a).forest.find b).forest.root k = f.root k := fun k =>
    (root_forest_find _ b k).trans (root_forest_find f a k)
  have hb : ((f.find a).forest.find b).root = f.root b :=
    (find_root _ b).trans (root_forest_find f a b)
  rw [join]
  split
  · rename_i heq
    rw [find_root,hb] at heq
    rw [hkept,heq]
    split
    · assumption
    · rfl
  · rename_i hne
    rw [root_hang _ (parent_find_root _ b) (Ne.symm hne),hkept,hb,find_root]

/-- Two places have one root after a join if they had before or if it joins their trees. -/
theorem root_join_eq_iff : (f.join a b).root i = (f.join a b).root k ↔ f.root i = f.root k ∨
    (f.root i = f.root a ∧ f.root k = f.root b) ∨ f.root i = f.root b ∧ f.root k = f.root a := by
  rw [root_join,root_join]
  split <;> split <;> grind

/-- What has one root keeps one root. -/
theorem root_joinAll_of_eq (h : f.root i = f.root k) (links : List (Fin n × Fin n)) :
    (f.joinAll links).root i = (f.joinAll links).root k := by
  induction links generalizing f with
  | nil => exact h
  | cons link links ih => exact ih (root_join_eq_iff.mpr (.inl h))

/-- Joined places have one root. -/
theorem root_joinAll_of_mem (h : (a,b) ∈ links) :
    (f.joinAll links).root a = (f.joinAll links).root b := by
  induction links generalizing f with
  | nil => cases h
  | cons link links ih =>
    rcases List.mem_cons.mp h with rfl|h
    · exact root_joinAll_of_eq (root_join_eq_iff.mpr (.inr (.inl ⟨rfl,rfl⟩))) links
    · exact ih h

/-- Nothing else has: places with one root are equivalent under every equivalence that holds of
places with one root before and of the joined places. -/
theorem equivalent_of_root_joinAll {E : Fin n → Fin n → Prop} (hE : Equivalence E)
    (hbefore : ∀ {i k}, f.root i = f.root k → E i k) (hlinks : ∀ link ∈ links, E link.1 link.2)
    (h : (f.joinAll links).root i = (f.joinAll links).root k) : E i k := by
  induction links generalizing f with
  | nil => exact hbefore h
  | cons link links ih =>
    have hlink := hlinks link List.mem_cons_self
    refine ih (fun {i k} hik => ?_) (fun l hl => hlinks l (List.mem_cons_of_mem _ hl)) h
    rcases root_join_eq_iff.mp hik with hik|⟨hi,hk⟩|⟨hi,hk⟩
    · exact hbefore hik
    · exact hE.trans (hbefore hi) (hE.trans hlink (hE.symm (hbefore hk)))
    · exact hE.trans (hbefore hi) (hE.trans (hE.symm hlink) (hE.symm (hbefore hk)))

end Forest

end GraphPattern
