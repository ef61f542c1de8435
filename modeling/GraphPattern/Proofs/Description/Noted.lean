import GraphPattern.Proofs.Rule.Declared
import GraphPattern.Proofs.Validation.Exact

/-!
# What constraints are noted to be about

A description declares its constraints when all items are there. So every constraint of a query that
is built is noted to be about edges exactly if its first item is one, and constraints that state the
same relation are noted alike.
-/

namespace GraphPattern

open Step

namespace Query

variable {q : Query} {k l : Constraint} {c d : ContainerId}

/-- The first item of the constraint is an edge. -/
def AboutEdge (q : Query) (k : Constraint) : Prop :=
  ∃ n i, k.itemNames.head? = some n ∧ q.itemNames i = [n] ∧ q.IsEdge i

/-- Every constraint is noted to be about edges exactly if its first item is one. -/
def Noted (q : Query) : Prop := q.Constrained fun k => k.onEdges = true ↔ q.AboutEdge k

theorem itemSatisfies_isEdge {i : ItemId} : q.itemSatisfies Item.isEdge i = true ↔ q.IsEdge i := by
  rw [itemSatisfies,Option.any_eq_true]
  refine exists_congr fun x => and_congr_right fun _ => ?_
  rw [Item.isEdge,Bool.not_eq_true']

theorem onEdges_noted (h : q.WellFormed) (k : Constraint) :
    (q.noted k).onEdges = true ↔ q.AboutEdge (q.noted k) := by
  change ((k.itemNames.head?.bind q.itemNamed?).any (q.itemSatisfies Item.isEdge)) = true ↔
    ∃ n i, k.itemNames.head? = some n ∧ q.itemNames i = [n] ∧ q.IsEdge i
  simp only [Option.any_eq_true,Option.bind_eq_some_iff,itemNamed?_eq_some h,itemSatisfies_isEdge]
  constructor
  · rintro ⟨i,⟨n,hn,hi⟩,he⟩
    exact ⟨n,i,hn,hi,he⟩
  · rintro ⟨n,i,hn,hi,he⟩
    exact ⟨i,⟨n,hn,hi⟩,he⟩

/-- Declarations leave all items as they are. -/
theorem Noted.mapContainer (h : q.Noted) {f : Container → Container}
    (hf : ∀ C k, k ∈ (f C).constraints → (k.onEdges = true ↔ q.AboutEdge k) ∨ k ∈ C.constraints) :
    (q.mapContainer c f).Noted := by
  have hsame : (q.mapContainer c f).AboutEdge = q.AboutEdge := rfl
  rw [Noted,hsame]
  exact Constrained.mapContainer h hf

/-- Constraints that state the same relation are noted alike. -/
theorem Noted.onEdges (h : q.Noted) (hk : k ∈ q.declared c) (hl : l ∈ q.declared d)
    (hkl : k.sameRelation l = true) : k.onEdges = l.onEdges := by
  obtain ⟨C,hC,hk⟩ := mem_declared.mp hk
  obtain ⟨D,hD,hl⟩ := mem_declared.mp hl
  have hnk : k.onEdges = true ↔ q.AboutEdge k := h c C k hC hk
  have hnl : l.onEdges = true ↔ q.AboutEdge l := h d D l hD hl
  rw [Bool.eq_iff_iff,hnk,hnl,AboutEdge,AboutEdge,Constraint.itemNames_of_sameRelation hkl]

end Query

namespace Description

/-- Declarations keep the notes. -/
theorem keeps_noted (c : ContainerId) (members : Members) :
    Keeps (fun q => Sound (fun _ => True) q ∧ q.Noted) (fun _ => True)
      (addDeclarations c members) := by
  refine keeps_declarations c fun hq hf hk => ⟨hq.1.mapContainer hf fun _ _ _ => .inl trivial,
    hq.2.mapContainer fun C l hl => (hk C l hl).imp_left ?_⟩
  rintro ⟨-,-,k,-,rfl⟩
  exact Query.onEdges_noted hq.1.1.wellFormed k

/-- What is built is noted. -/
theorem noted_build {d : Description} {q : Query} (hq : d.build = .ok q) : q.Noted := by
  rw [build] at hq
  split at hq
  · rename_i u q' hrun
    cases hq
    -- No constraint is there before the declarations are added.
    have hbare : Sound (fun _ => False) (Query.bare d.name d.description) :=
      ⟨Query.written_bare d.name d.description,fun c C k hC hk => by
        rw [(Query.container?_bare hC).2] at hk
        cases hk⟩
    obtain ⟨_,q₁,h₁,hrun⟩ := bind_eq_ok.mp hrun
    obtain ⟨added,q₂,h₂,hrun⟩ := bind_eq_ok.mp hrun
    obtain ⟨_,q₃,h₃,hrun⟩ := bind_eq_ok.mp hrun
    have hq₁ := (keeps_addVertices .root d.members _ _ _ hbare h₁).1
    have hq₂ := (keeps_addSubqueries d.subqueries .root _ _ _ hq₁ h₂).1
    have hedges : Keeps (Sound fun _ => False) (fun _ => True)
        (((ContainerId.root,d.members) :: added).forM fun e => addEdges e.1 e.2) :=
      .forM fun e _ => keeps_addEdges e.1 e.2
    have hq₃ := (hedges _ _ _ hq₂ h₃).1
    have hdeclarations : Keeps (fun q => Sound (fun _ => True) q ∧ q.Noted) (fun _ => True)
        (((ContainerId.root,d.members) :: added).forM fun e => addDeclarations e.1 e.2) :=
      .forM fun e _ => keeps_noted e.1 e.2
    exact (hdeclarations _ _ _ ⟨⟨hq₃.1,fun _ _ _ _ _ => trivial⟩,
      fun c C k hC hk => (hq₃.2 c C k hC hk).elim⟩ hrun).1.2
  · cases hq

end Description

end GraphPattern
