import GraphPattern.Proofs.Table
import Mathlib.Data.List.Nodup
import Mathlib.Data.List.Perm.Basic
import Mathlib.GroupTheory.Perm.Basic
import Mathlib.Logic.Equiv.Basic

/-!
# Renumbering rows

The numbers in some columns of a table are names: nothing depends on what they are, but on which of
them are equal. A renumbering gives every column a permutation of the numbers. Rows that are
renumbered and put in another order stay so under the operations on tables, as long as columns that
are compared are renumbered alike. Numbers that an operation gives to rows are renumbered by
whatever permutation the other order makes of them.
-/

namespace GraphPattern

/-- The value with its number renamed, if it is a number. -/
def Value.renumber (σ : Equiv.Perm Int) : Value → Value
  | .int n => .int (σ n)
  | v => v

namespace Value

variable {σ τ : Equiv.Perm Int} {v w : Value}

@[simp] theorem renumber_string (s : String) : (string s).renumber σ = string s := rfl

@[simp] theorem renumber_one (v : Value) : v.renumber 1 = v := by
  cases v <;> rfl

theorem renumber_mul (v : Value) : v.renumber (σ * τ) = (v.renumber τ).renumber σ := by
  cases v <;> rfl

theorem renumber_injective (σ : Equiv.Perm Int) : Function.Injective (renumber σ) := by
  intro v w h
  have hback : ∀ u : Value, (u.renumber σ).renumber σ⁻¹ = u := fun u => by
    rw [← renumber_mul,inv_mul_cancel,renumber_one]
  rw [← hback v,h,hback w]

@[simp] theorem isNull_renumber (v : Value) : (v.renumber σ).isNull = v.isNull := by
  cases v <;> rfl

theorem renumber_eq_string {s : String} : v.renumber σ = string s ↔ v = string s := by
  cases v <;> simp [renumber]

end Value

/-- A permutation for every column; columns that are not mentioned stay as they are. -/
abbrev Renumbering := List (Equiv.Perm Int)

namespace Renumbering

open Table

variable {φ χ ψ : Renumbering} {row l r : List Value} {ps lk rk : List Nat}

/-- The permutation of a column. -/
def perm (φ : Renumbering) (column : Nat) : Equiv.Perm Int := φ.getD column 1

/-- The row with the numbers in its columns renamed. -/
def act (φ : Renumbering) (row : List Value) : List Value :=
  row.mapIdx fun i v => v.renumber (φ.perm i)

/-- The permutations of some columns. -/
def columns (φ : Renumbering) (ps : List Nat) : Renumbering := ps.map φ.perm

/-- The permutations of the columns of a join. -/
def picked (φ χ : Renumbering) (picks : List (JoinSide × Nat)) : Renumbering :=
  picks.map fun (side, i) =>
    match side with
    | .left => φ.perm i
    | .right => χ.perm i

theorem act_congr (h : ∀ i, φ.perm i = χ.perm i) (row : List Value) : φ.act row = χ.act row :=
  congrArg (List.mapIdx · row) (funext fun i => by rw [h i])

theorem perm_nil (i : Nat) : perm [] i = 1 := by
  rw [perm,List.getD_nil]

@[simp] theorem act_nil (row : List Value) : act [] row = row := by
  refine List.ext_getElem (List.length_mapIdx) fun i hi hi' => ?_
  simp only [act,List.getElem_mapIdx,perm_nil,Value.renumber_one]

theorem cell_act (i : Nat) : cell (φ.act row) i = (cell row i).renumber (φ.perm i) := by
  rw [cell,cell,List.getD_eq_getElem?_getD,List.getD_eq_getElem?_getD,act,List.getElem?_mapIdx]
  cases row[i]? <;> rfl

/-- Cells that are chosen one by one are renumbered by the permutations of their columns. -/
theorem act_map {α : Type} (f : α → Value) (g : α → Equiv.Perm Int) (as : List α) :
    act (as.map g) (as.map f) = as.map fun a => (f a).renumber (g a) := by
  refine List.ext_getElem (by simp [act]) fun i hi hi' => ?_
  have hlen : i < as.length := by simpa using hi'
  simp only [act,List.getElem_mapIdx,List.getElem_map,perm,List.getD_eq_getElem?_getD,
    List.getElem?_map,List.getElem?_eq_getElem hlen,Option.map_some,Option.getD_some]

theorem perm_of_length_le {i : Nat} (h : φ.length ≤ i) : φ.perm i = 1 := by
  rw [perm,List.getD_eq_getElem?_getD,List.getElem?_eq_none h,Option.getD_none]

/-- A cell that is added at the end stays as it is, if its column is not renumbered. -/
theorem act_append {v : Value} (h : v.renumber (φ.perm row.length) = v) :
    φ.act (row ++ [v]) = φ.act row ++ [v] := by
  rw [act,List.mapIdx_append,List.mapIdx_singleton,Nat.zero_add,h]
  rfl

/-- A cell that is added at the end is renumbered by the permutation that is added at the end. -/
theorem act_concat {τ : Equiv.Perm Int} {v : Value} (h : row.length = φ.length) :
    act (φ ++ [τ]) (row ++ [v]) = φ.act row ++ [v.renumber τ] := by
  have hlast : perm (φ ++ [τ]) row.length = τ := by
    rw [perm,h,List.getD_eq_getElem?_getD,List.getElem?_concat_length,Option.getD_some]
  rw [act,List.mapIdx_append,List.mapIdx_singleton,Nat.zero_add,hlast]
  refine congrArg (· ++ _) (List.ext_getElem (by simp [act]) fun i hi hi' => ?_)
  have hlt : i < φ.length := by simpa [h] using hi
  simp only [act,List.getElem_mapIdx,perm,List.getD_eq_getElem?_getD,
    List.getElem?_append_left hlt]

theorem cells_act : cells (φ.act row) ps = (φ.columns ps).act (cells row ps) := by
  rw [cells,cells,columns,act_map]
  exact List.map_congr_left fun p _ => cell_act p

theorem act_injective (φ : Renumbering) : Function.Injective φ.act := by
  intro l r h
  have hlen : l.length = r.length := by simpa [act] using congrArg List.length h
  refine List.ext_getElem hlen fun i hi hi' => ?_
  have hi'' := congrArg (fun row => row[i]?) h
  simp only [act,List.getElem?_mapIdx,List.getElem?_eq_getElem hi,List.getElem?_eq_getElem hi',
    Option.map_some,Option.some_inj] at hi''
  exact Value.renumber_injective _ hi''

theorem pickCells_act (picks : List (JoinSide × Nat)) :
    pickCells picks (φ.act l) (χ.act r) = (φ.picked χ picks).act (pickCells picks l r) := by
  rw [pickCells,pickCells,picked,act_map]
  refine List.map_congr_left fun pick _ => ?_
  rcases pick with ⟨_|_,p⟩
  · exact cell_act p
  · exact cell_act p

theorem any_isNull_act : (φ.act row).any Value.isNull = row.any Value.isNull := by
  rw [act,Bool.eq_iff_iff,List.any_eq_true,List.any_eq_true]
  simp only [List.mem_mapIdx]
  constructor
  · rintro ⟨v,⟨i,hi,rfl⟩,hv⟩
    exact ⟨row[i],List.getElem_mem hi,by rwa [Value.isNull_renumber] at hv⟩
  · rintro ⟨v,hv,hn⟩
    obtain ⟨i,hi,rfl⟩ := List.getElem_of_mem hv
    exact ⟨_,⟨i,hi,rfl⟩,by rwa [Value.isNull_renumber]⟩

theorem joinKey?_act : joinKey? (φ.act row) ps = (joinKey? row ps).map (φ.columns ps).act := by
  simp only [joinKey?,cells_act,any_isNull_act]
  split <;> rfl

/-- Whether two rows agree does not depend on the numbers, if the columns that are compared are
renumbered alike. -/
theorem agree_act (h : φ.columns lk = χ.columns rk) :
    agree lk rk (φ.act l) (χ.act r) = agree lk rk l r := by
  rw [agree,agree,joinKey?_act,joinKey?_act,h,Option.isSome_map,
    Bool.eq_iff_iff,Bool.and_eq_true_iff,Bool.and_eq_true_iff,decide_eq_true_eq,decide_eq_true_eq,
    (Option.map_injective (act_injective _)).eq_iff]

end Renumbering

open Renumbering Table

/-- The rows in another order are numbered in another order. The numbers of further rows need not be
renamed for that. -/
theorem exists_perm_of_numbers {A B : Rows} (h : B.Perm A) : ∀ f : Nat → Int, f.Injective →
    ∃ τ : Equiv.Perm Int, (∀ m, (∀ i < A.length, f i ≠ m) → τ m = m) ∧
      (B.mapIdx fun i row => row ++ [.int (f i)]).Perm
        (A.mapIdx fun i row => row ++ [.int (τ (f i))]) := by
  induction h with
  | nil => exact fun f _ => ⟨1,fun m _ => rfl,.nil⟩
  | @cons row B A _ ih =>
    intro f hf
    obtain ⟨τ,hfix,hperm⟩ := ih (fun i => f (i+1)) fun i j he => Nat.succ_injective (hf he)
    refine ⟨τ,fun m hm => hfix m fun i hi => hm (i+1) (Nat.succ_lt_succ hi),?_⟩
    have hfirst : τ (f 0) = f 0 := hfix _ fun i _ he => Nat.succ_ne_zero i (hf he)
    rw [List.mapIdx_cons,List.mapIdx_cons,hfirst]
    exact hperm.cons _
  | swap row row' rows =>
    intro f hf
    refine ⟨Equiv.swap (f 0) (f 1),fun m hm => ?_,?_⟩
    · exact Equiv.swap_apply_of_ne_of_ne (hm 0 (by simp)).symm (hm 1 (by simp)).symm
    · have hrest : ∀ i, Equiv.swap (f 0) (f 1) (f (i+2)) = f (i+2) := fun i =>
        Equiv.swap_apply_of_ne_of_ne (fun he => by have := hf he; omega)
          fun he => by have := hf he; omega
      simp only [List.mapIdx_cons,Equiv.swap_apply_left,Equiv.swap_apply_right,Nat.zero_add,
        Nat.add_assoc,Nat.reduceAdd,hrest]
      exact .swap _ _ _
  | @trans B C A _ h ih ih' =>
    intro f hf
    obtain ⟨τ,hfix,hperm⟩ := ih f hf
    obtain ⟨τ',hfix',hperm'⟩ := ih' (fun i => τ (f i)) (τ.injective.comp hf)
    refine ⟨τ' * τ,fun m hm => ?_,hperm.trans hperm'⟩
    have hm' : τ m = m := hfix m fun i hi => hm i (h.length_eq ▸ hi)
    rw [Equiv.Perm.mul_apply,hm']
    exact hfix' m fun i hi he => hm i hi (τ.injective (he.trans hm'.symm))

/-- The second rows are the first ones with renamed numbers in some order. -/
def Renames (φ : Renumbering) (A B : Rows) : Prop := B.Perm (A.map φ.act)

namespace Renames

variable {φ χ ψ : Renumbering} {A B C D : Rows}

theorem refl (A : Rows) : Renames [] A A := by
  rw [Renames,show act [] = id from funext act_nil,List.map_id]

theorem congr (h : Renames φ A B) (hφ : ∀ i, φ.perm i = χ.perm i) : Renames χ A B := by
  rw [Renames,← show φ.act = χ.act from funext (act_congr hφ)]
  exact h

theorem length (h : Renames φ A B) : B.length = A.length :=
  (List.Perm.length_eq h).trans (List.length_map _)

theorem mem (h : Renames φ A B) {row : List Value} : row ∈ B ↔ ∃ r ∈ A, φ.act r = row := by
  rw [h.mem_iff,List.mem_map]

theorem append (h : Renames φ A B) (h' : Renames φ C D) : Renames φ (A ++ C) (B ++ D) := by
  rw [Renames,List.map_append]
  exact List.Perm.append h h'

theorem filter {p p' : List Value → Bool} (h : Renames φ A B)
    (hp : ∀ row, p' (φ.act row) = p row) : Renames φ (A.filter p) (B.filter p') := by
  have hf := List.Perm.filter p' h
  rw [List.filter_map,show p' ∘ φ.act = p from funext hp] at hf
  exact hf

theorem countP {p p' : List Value → Bool} (h : Renames φ A B)
    (hp : ∀ row, p' (φ.act row) = p row) : B.countP p' = A.countP p := by
  rw [List.countP_eq_length_filter,List.countP_eq_length_filter]
  exact (h.filter hp).length

/-- Rows that are made one by one are renumbered one by one. -/
theorem map {f g : List Value → List Value} (h : Renames φ A B)
    (hf : ∀ row ∈ A, g (φ.act row) = ψ.act (f row)) : Renames ψ (A.map f) (B.map g) :=
  List.Perm.trans (List.Perm.map g h) (.of_eq (by
    rw [List.map_map,List.map_map]
    exact List.map_congr_left hf))

/-- Rows that are kept once are renumbered, if the rows that they are made of are. -/
theorem distinct (h : Renames φ A B) (ps : List Nat) :
    Renames (φ.columns ps) (distinctRows ps A) (distinctRows ps B) := by
  refine (List.perm_ext_iff_of_nodup (nodup_distinctRows ps B)
    ((nodup_distinctRows ps A).map (act_injective _))).mpr fun row => ?_
  simp only [mem_distinctRows,List.mem_map,h.mem]
  constructor
  · rintro ⟨_,⟨r,hr,rfl⟩,rfl⟩
    exact ⟨_,⟨r,hr,rfl⟩,cells_act.symm⟩
  · rintro ⟨_,⟨r,hr,rfl⟩,rfl⟩
    exact ⟨_,⟨r,hr,rfl⟩,cells_act⟩

/-- How many rows there are for a combination of cells does not depend on the numbers. -/
theorem count (h : Renames φ A B) (ps : List Nat) :
    Renames (φ.columns ps) (countRows ps A) (countRows ps B) := by
  rw [countRows_eq,countRows_eq]
  refine (h.distinct ps).map fun key hkey => ?_
  obtain ⟨r,-,rfl⟩ := mem_distinctRows.mp hkey
  have hcount : B.countP (fun r' => cells r' ps = (φ.columns ps).act (cells r ps)) =
      A.countP fun r' => cells r' ps = cells r ps :=
    h.countP fun r' => by simp only [cells_act,(act_injective _).eq_iff]
  have hlast : (φ.columns ps).perm (cells r ps).length = 1 :=
    perm_of_length_le (by simp [Renumbering.columns,cells])
  rw [hcount,act_append (by rw [hlast,Value.renumber_one])]

theorem join (h : Renames φ A B) (h' : Renames χ C D) (lk rk : List Nat)
    (picks : List (JoinSide × Nat)) (hk : φ.columns lk = χ.columns rk) :
    Renames (φ.picked χ picks) (joinRows lk rk picks A C) (joinRows lk rk picks B D) := by
  have hrow : ∀ l, Renames (φ.picked χ picks) ((C.filter (agree lk rk l)).map (pickCells picks l))
      ((D.filter (agree lk rk (φ.act l))).map (pickCells picks (φ.act l))) := fun l => by
    have hf : Renames χ (C.filter (agree lk rk l)) (D.filter (agree lk rk (φ.act l))) :=
      h'.filter fun r => agree_act hk
    exact List.Perm.trans (List.Perm.map _ hf) (.of_eq (by
      rw [List.map_map,List.map_map]
      exact List.map_congr_left fun r _ => pickCells_act picks))
  rw [Renames,joinRows,joinRows,List.map_flatMap]
  refine (List.Perm.flatMap_right _ h).trans ?_
  rw [List.flatMap_map]
  exact List.Perm.flatMap_left _ fun l _ => hrow l

/-- The numbers that rows are given are renumbered by some permutation. -/
theorem exists_numbered (h : Renames φ A B) (hlen : ∀ row ∈ A, row.length = φ.length) :
    ∃ τ, Renames (φ ++ [τ]) (numberedRows A) (numberedRows B) := by
  obtain ⟨τ,-,hperm⟩ := exists_perm_of_numbers h (fun i => (i : Int)+1) fun i j he =>
    Int.ofNat_inj.mp ((Int.add_left_inj 1).mp he)
  refine ⟨τ,List.Perm.trans hperm (.of_eq ?_)⟩
  rw [numberedRows]
  refine List.ext_getElem (by simp) fun i hi hi' => ?_
  simp only [List.getElem_mapIdx,List.getElem_map]
  exact (act_concat (v:=.int (i+1)) (hlen _ (List.getElem_mem _))).symm

theorem antiJoin (h : Renames φ A B) (h' : Renames χ C D) (lk rk : List Nat)
    (hk : φ.columns lk = χ.columns rk) :
    Renames φ (antiJoinRows lk rk A C) (antiJoinRows lk rk B D) :=
  h.filter fun l => by
    have hf : Renames χ (C.filter (agree lk rk l)) (D.filter (agree lk rk (φ.act l))) :=
      h'.filter fun r => agree_act hk
    rw [Bool.eq_iff_iff,List.isEmpty_iff,List.isEmpty_iff,← List.length_eq_zero_iff,hf.length,
      List.length_eq_zero_iff]

end Renames

end GraphPattern
