import GraphPattern.Proofs.Rule.Renumbering
import GraphPattern.Store.Container
import Mathlib.Data.Set.Finite.List
import Mathlib.GroupTheory.Perm.Finite
import Mathlib.Logic.Equiv.Fintype
import Mathlib.Order.CompletePartialOrder

/-!
# What matches hold

A match binds the names of a query to sets of objects and of links. Rows of matches present a set of
such bindings if every row belongs to a match, no row occurs twice and different matches hold
different things. Rows that present the same bindings are alike.
-/

namespace GraphPattern

open Table Renumbering

/-- The objects and the links that are bound to every name. -/
abbrev Binding := SourceKind → String → Set Int

namespace Matches

variable {X Y : Rows × Rows} {F : Set Binding} {kind : SourceKind} {g i : Int} {n : String}

/-- The rows for objects or for links. -/
def rowsOf (X : Rows × Rows) : SourceKind → Rows
  | .object => X.1
  | .link => X.2

/-- What a match holds. -/
def bound (X : Rows × Rows) (g : Int) : Binding := fun kind name =>
  {i | MatchRow.cells ⟨i,g,name⟩ ∈ rowsOf X kind}

/-- The numbers of the matches. Every match has an object. -/
def numbers (X : Rows × Rows) : Set Int := {g | ∃ i name, MatchRow.cells ⟨i,g,name⟩ ∈ X.1}

theorem mem_bound : i ∈ bound X g kind n ↔ MatchRow.cells ⟨i,g,n⟩ ∈ rowsOf X kind := Iff.rfl

theorem mem_numbers : g ∈ numbers X ↔ ∃ i n, i ∈ bound X g .object n := Iff.rfl

theorem cells_injective : Function.Injective MatchRow.cells := by
  rintro ⟨i,g,n⟩ ⟨j,h,m⟩ he
  cases he
  rfl

/-- Rows of matches that are written down have their cells. -/
theorem cells_rowsOf {O L : List MatchRow} (kind : SourceKind) :
    ∀ row ∈ rowsOf (O.map MatchRow.cells,L.map MatchRow.cells) kind, ∃ r : MatchRow, r.cells = row := by
  intro row hrow
  cases kind <;> exact (List.mem_map.mp hrow).imp fun _ h => h.2

/-- Every row belongs to a match, and none occurs twice. -/
structure Proper (X : Rows × Rows) : Prop where
  /-- Every row is one of a match. -/
  shaped : ∀ {kind row}, row ∈ rowsOf X kind → ∃ r : MatchRow, r.cells = row ∧ r.subgraph ∈ numbers X
  /-- No row occurs twice. -/
  nodup : ∀ kind, (rowsOf X kind).Nodup

/-- Every row is one of some match, of which nothing else may be known, and none occurs twice. -/
structure Tidy (X : Rows × Rows) : Prop where
  /-- Every row has the cells of one. -/
  cells : ∀ kind, ∀ row ∈ rowsOf X kind, ∃ r : MatchRow, r.cells = row
  /-- No row occurs twice. -/
  nodup : ∀ kind, (rowsOf X kind).Nodup

theorem Proper.tidy (h : Proper X) : Tidy X :=
  ⟨fun _ _ hrow => (h.shaped hrow).imp fun _ hr => hr.1,h.nodup⟩

/-- The matches hold what the bindings say, each of them something else. -/
structure Presents (X : Rows × Rows) (F : Set Binding) : Prop extends Proper X where
  /-- Different matches hold different things. -/
  injective : Set.InjOn (bound X) (numbers X)
  /-- Together they hold the bindings. -/
  image : bound X '' numbers X = F

theorem finite_numbers (X : Rows × Rows) : (numbers X).Finite := by
  refine ((X.1.filterMap fun row => (cell row 1).asInt?).finite_toSet).subset fun g hg => ?_
  obtain ⟨i,n,hrow⟩ := hg
  exact List.mem_filterMap.mpr ⟨_,hrow,rfl⟩

theorem Proper.mem_numbers (h : Proper X) (hi : i ∈ bound X g kind n) : g ∈ numbers X := by
  obtain ⟨r,hr,hg⟩ := h.shaped hi
  cases cells_injective hr
  exact hg

theorem Presents.bijOn (h : Presents X F) : Set.BijOn (bound X) (numbers X) F :=
  ⟨fun _ hg => h.image ▸ Set.mem_image_of_mem _ hg,h.injective,fun _ hb => h.image.symm ▸ hb⟩

/-- Two finite sets of numbers that are as large are renamed into each other by a permutation. -/
theorem exists_perm_of_equiv {A B : Set Int} (hA : A.Finite) (hB : B.Finite) (e : A ≃ B) :
    ∃ σ : Equiv.Perm Int, ∀ a : A, σ a = e a := by
  classical
  have : Fintype ↥(A ∪ B) := (hA.union hB).fintype
  let f : {x : ↥(A ∪ B) // x.1 ∈ A} ≃ {x : ↥(A ∪ B) // x.1 ∈ B} :=
    ((Equiv.subtypeSubtypeEquivSubtype fun h => .inl h).trans e).trans
      (Equiv.subtypeSubtypeEquivSubtype fun h => .inr h).symm
  refine ⟨Equiv.Perm.ofSubtype f.extendSubtype,fun a => ?_⟩
  rw [Equiv.Perm.ofSubtype_apply_of_mem _ (show a.1 ∈ A ∪ B from .inl a.2),
    Equiv.extendSubtype_apply_of_mem f _ a.2]
  rfl

theorem act_cells (σ : Equiv.Perm Int) (r : MatchRow) :
    act [1,σ] r.cells = MatchRow.cells { r with subgraph := σ r.subgraph } := rfl

/-- Rows that present the same bindings are alike. -/
theorem Presents.alike (hX : Presents X F) (hY : Presents Y F) : Alike X Y := by
  obtain ⟨σ,hσ⟩ := exists_perm_of_equiv (finite_numbers X) (finite_numbers Y)
    ((hX.bijOn.equiv _).trans (hY.bijOn.equiv _).symm)
  have hsame : ∀ g ∈ numbers X, σ g ∈ numbers Y ∧ bound Y (σ g) = bound X g := fun g hg => by
    rw [hσ ⟨g,hg⟩]
    refine ⟨Subtype.property _,?_⟩
    exact congrArg Subtype.val ((hY.bijOn.equiv _).apply_symm_apply (hX.bijOn.equiv _ ⟨g,hg⟩))
  have hback : ∀ h ∈ numbers Y, ∃ g ∈ numbers X, σ g = h := fun h hh => by
    refine ⟨((hY.bijOn.equiv _).trans (hX.bijOn.equiv _).symm ⟨h,hh⟩).1,Subtype.property _,?_⟩
    rw [hσ]
    simp
  have hrows : ∀ kind, Renames [1,σ] (rowsOf X kind) (rowsOf Y kind) := fun kind => by
    refine (List.perm_ext_iff_of_nodup (hY.nodup kind)
      ((hX.nodup kind).map (act_injective _))).mpr fun row => ?_
    rw [List.mem_map]
    constructor
    · intro hrow
      obtain ⟨⟨i,h,n⟩,rfl,hh⟩ := hY.shaped hrow
      obtain ⟨g,hg,rfl⟩ := hback h hh
      have hi : i ∈ bound X g kind n := (hsame g hg).2 ▸ hrow
      exact ⟨_,hi,act_cells σ ⟨i,g,n⟩⟩
    · rintro ⟨row,hrow,rfl⟩
      obtain ⟨⟨i,g,n⟩,rfl,hg⟩ := hX.shaped hrow
      have hi : i ∈ bound Y (σ g) kind n := (hsame g hg).2.symm ▸ hrow
      exact hi
  exact ⟨σ,hrows .object,hrows .link⟩

end Matches

end GraphPattern
