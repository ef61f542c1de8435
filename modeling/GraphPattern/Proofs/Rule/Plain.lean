import GraphPattern.Proofs.Rule.Ahead
import GraphPattern.Proofs.Rule.Regular
import GraphPattern.Proofs.Validation.Prune

/-!
# Plain queries can be solved

A query without subqueries and annotations never gets stuck. As long as there are a vertex that
matches nothing yet, an edge or a constraint, some rule applies; and since edges hold the query
together, all vertices are in one place when none does.
-/

namespace GraphPattern

namespace Query

open Rule Relation

/-- A query without subqueries and without annotations. -/
structure Plain (q : Query) : Prop where
  /-- There are no subqueries. -/
  subqueries : q.subqueries .whole = []
  /-- Vertices and edges are not annotated. -/
  bounds : ∀ {i}, q.itemBounds i = none
  /-- Constraints are not annotated. -/
  constraints : ∀ k ∈ q.constraints .whole, k.bounds = none

variable {q p : Query} {f : ItemId → ItemId} {v u e : ItemId} {s : Bool} {c : ContainerId}
  {C : Container}

/-- Reductions lead to a query that no rule reduces. -/
theorem exists_irreducible (h₀ : q.Regular) (hs : q.Settling) :
    ∃ p f, ReflTransGen ReducesTo q p ∧ q.Descends p f ∧ ∀ p', ¬p.ReducesTo p' := by
  have hall : ∀ (n : Nat) (p : Query) (f : ItemId → ItemId), p.weight = n → q.Descends p f →
      ∃ p' f', ReflTransGen ReducesTo p p' ∧ q.Descends p' f' ∧ ∀ p'', ¬p'.ReducesTo p'' := by
    intro n
    induction n using Nat.strongRecOn with
    | ind n ih =>
      intro p f hn hp
      by_cases hirr : ∃ p', p.ReducesTo p'
      · obtain ⟨p',rule,a,out,hr⟩ := hirr
        have hlt := hr.weight_lt hp.wellFormed
        obtain ⟨p'',f'',hlead,hp'',hirr⟩ := ih p'.weight (by omega) p' _ rfl (hp.step hr)
        exact ⟨p'',f'',.head ⟨rule,a,out,hr⟩ hlead,hp'',hirr⟩
      · exact ⟨p,f,.refl,hp,not_exists.mp hirr⟩
  exact hall _ q id rfl (.refl h₀.wellFormed h₀.flat hs)

/-- The name of an operand of a constraint that validation accepts is the name of an item. -/
theorem exists_named_of_violations (h : q.WellFormed) (hv : q.violations = []) {k : Constraint}
    (hk : k ∈ q.declared c) {n : String} (hn : n ∈ k.itemNames) : ∃ i, n ∈ q.itemNames i := by
  obtain ⟨C,hC,hk⟩ := mem_declared.mp hk
  have hnone := visit_of_violations h hv hC (e:=.constraint k) (List.mem_append_right _
    (List.mem_append_left _ (List.mem_append_left _ (mem_announced hk))))
  rw [visitViolations,constraintViolations] at hnone
  simp only [List.append_eq_nil_iff,List.map_eq_nil_iff,List.filter_eq_nil_iff] at hnone
  have hknown := hnone.1.2 n hn
  rw [Bool.not_eq_true,Option.isNone_eq_false_iff,Option.isSome_iff_exists] at hknown
  obtain ⟨x,hx⟩ := hknown
  obtain ⟨i,hi,hx⟩ := Option.bind_eq_some_iff.mp hx
  have hname := List.find?_some hi
  rw [itemSatisfies,hx,Option.any_some,decide_eq_true_eq] at hname
  exact ⟨i,mem_itemNames.mpr ⟨x,hx,by rw [hname]; exact List.mem_singleton_self n⟩⟩

theorem mem_constraints (h : q.WellFormed) (hC : q.container? c = some C) {k : Constraint}
    (hk : k ∈ C.constraints) : k ∈ q.constraints .whole :=
  h.nested.mem_flatMap_containersIn hC hk

namespace Plain

variable (h : q.Plain) (hw : q.WellFormed)

include h hw

/-- The root is the only container. -/
theorem eq_root (hC : q.container? c = some C) : c = .root := by
  obtain ⟨R,hR,-⟩ := hw.nested.root
  have hmem : ∀ {d D}, q.container? d = some D → d ∈ q.containerIds := fun hD =>
    hw.nested.mem_containerIds.mpr (by rw [hD]; rfl)
  have hone : ∃ d, q.containerIds ⊆ [d] := by
    have hrest := h.subqueries
    rw [Query.subqueries] at hrest
    cases hids : q.containerIds with
    | nil => exact ⟨c,List.nil_subset _⟩
    | cons d ds =>
      rw [hids,List.drop_one,List.tail_cons] at hrest
      exact ⟨d,by rw [hrest]; exact List.Subset.refl _⟩
  obtain ⟨d,hd⟩ := hone
  rw [List.mem_singleton.mp (hd (hmem hC)),List.mem_singleton.mp (hd (hmem hR))]

/-- No container is annotated. -/
theorem subqueryBounds : q.subqueryBounds c = none := by
  cases hC : q.container? c with
  | none => rw [Query.subqueryBounds,hC]; rfl
  | some C => rw [h.eq_root hw hC,hw.subqueryBounds_root]

/-- Nothing may be absent. -/
theorem not_mayVanish (i : ItemId) : ¬q.MayVanish i := by
  rintro (hi|⟨c,-,a,-,ha⟩)
  · rw [h.bounds] at hi
    cases hi
  · rw [h.subqueryBounds hw] at ha
    cases ha

/-- What edges carry from one end to the other is the same at all vertices, if validation accepts
the query. -/
theorem eq_of_ends {β : Type} {g : ItemId → β} (hv : q.violations = [])
    (hg : ∀ {e v u}, q.Ends e true v → q.Ends e false u → g v = g u) (hx : q.IsVertex v)
    (hy : q.IsVertex u) : g v = g u := by
  rw [violations,List.append_eq_nil_iff] at hv
  have hjoined := ((connectionViolations_iff hw).mp hv.2).2 v u hx (h.not_mayVanish hw v) hy
    (h.not_mayVanish hw u)
  clear hx hy
  induction hjoined with
  | rel a b hab =>
    obtain ⟨e,ha,hb,-⟩ := hab
    exact hg ha hb
  | refl => rfl
  | symm a b _ ih => exact ih.symm
  | trans a b c _ _ ih ih' => exact ih.trans ih'

/-- The constraints of a plain query can be settled. -/
theorem settling (hc : ∀ {c k}, k ∈ q.declared c → k.sameRelation k = true) : q.Settling := by
  intro n _ k hk
  obtain ⟨c,-,hkc⟩ := mem_declarations.mp hk
  have hlike : k ∈ (q.declarations n).filter k.sameRelation := List.mem_filter.mpr ⟨hk,hc hkc⟩
  obtain ⟨m,hm⟩ := Option.isSome_iff_exists.mp
    (List.getLast?_isSome.mpr (List.ne_nil_of_mem hlike))
  obtain ⟨d,-,hmd⟩ := mem_declarations.mp (List.mem_filter.mp (List.mem_of_getLast? hm)).1
  obtain ⟨C,hC,hmC⟩ := mem_declared.mp hmd
  exact ⟨m,hm,h.constraints m (mem_constraints hw hC hmC)⟩

section Irreducible

/-! ## Where no rule applies -/

variable (hm : ∀ {i}, q.itemMarker i = none) (hp : q.Descends p f) (hirr : ∀ p', ¬p.ReducesTo p')

include hp in
theorem root_of_descends (hC : p.container? c = some C) : c = .root := by
  obtain ⟨C₀,hC₀,-⟩ := hp.container hC
  exact h.eq_root hw hC₀

include hp in
theorem owner_of_descends (hv : p.IsVertex v) : p.itemOwner v = some .root := by
  obtain ⟨x,hx,-⟩ := hv
  obtain ⟨c,C,hc,hC⟩ := hp.wellFormed.itemOwner hx
  rw [hc,h.root_of_descends hw hp hC]

include hm hp hirr

/-- No vertex is left to be matched. -/
theorem settledAt (hv : p.IsVertex v) : p.SettledAt v := by
  have hb : p.itemBounds v = none := by
    by_contra hb
    rcases hp.annotated hv hb with hk|⟨c,hl⟩
    · exact hb (hk.bounds.trans h.bounds)
    · exact hl.bounds.1 (h.subqueryBounds hw)
  obtain ⟨x,hx,hxv⟩ := hv
  rw [itemBounds_of_some hx] at hb
  by_cases hk : x.kind = .composite
  · refine ⟨x,hx,hk,hb,?_⟩
    by_contra hprov
    obtain ⟨a,p',out,hr⟩ := exists_applyUpperLimit hx hk hb hprov
    exact hirr p' ⟨_,a,out,hr⟩
  · obtain ⟨a,p',out,hr⟩ := exists_getVertex hp.wellFormed hx (Item.kind_of_isVertex hxv hk) hb
      fun he => (hp.same he.isEdge).2.1.trans hm
    exact absurd ⟨_,a,out,hr⟩ (hirr p')

/-- No edge is left. -/
theorem not_isEdge (h₀ : q.Regular) : ¬p.IsEdge e := by
  intro he
  have hpw := hp.wellFormed
  obtain ⟨v,hev⟩ := h₀.closed (hp.edge he).1 true
  obtain ⟨u,heu⟩ := h₀.closed (hp.edge he).1 false
  have hsource := hp.ends_place he hev
  have htarget := hp.ends_place he heu
  have hv := hsource.isVertex hpw
  have hu := htarget.isVertex hpw
  have hmarker := (hp.same he).2.1.trans hm
  by_cases hvu : f v = f u
  · obtain ⟨a,p',out,hr⟩ := exists_absorbSelfLoop hpw (fun s => by
      cases s
      · exact hvu ▸ htarget
      · exact hsource) (h.settledAt hw hm hp hirr hv) ((hp.same he).1.trans h.bounds) hmarker
    exact hirr p' ⟨_,a,out,hr⟩
  · obtain ⟨a,p',-,hr⟩ := exists_collapseEdge hpw hsource htarget hvu
      (h.settledAt hw hm hp hirr hv) (h.settledAt hw hm hp hirr hu)
      ((h.owner_of_descends hw hp hv).trans (h.owner_of_descends hw hp hu).symm) hmarker
    exact hirr p' ⟨_,a,_,hr⟩

/-- Everything is in the place of one vertex, because the query hangs together. -/
theorem place_eq (hv : q.violations = []) (hx : q.IsVertex v) {i : ItemId} {x : Item}
    (hi : q.item? i = some x) : f i = f v := by
  have h₀ := regular_of_violations hw hv
  have hvertex : ∀ {u}, q.IsVertex u → f u = f v := fun hu =>
    h.eq_of_ends hw hv (fun hs ht => (hp.gone (h.not_isEdge hw hm hp hirr h₀) hs).trans
      (hp.gone (h.not_isEdge hw hm hp hirr h₀) ht).symm) hu hx
  by_cases hxv : x.isVertex = true
  · exact hvertex ⟨x,hi,hxv⟩
  · obtain ⟨u,hu⟩ := h₀.closed ⟨x,hi,by simpa using hxv⟩ true
    exact (hp.gone (h.not_isEdge hw hm hp hirr h₀) hu).symm.trans (hvertex (hu.isVertex hw))

/-- No constraint is left. -/
theorem not_declared (hv : q.violations = [])
    (hc : ∀ {c k}, k ∈ q.declared c → k.sameRelation k = true) {k : Constraint} :
    k ∉ p.declared c := by
  intro hk
  obtain ⟨C,hC,hkC⟩ := mem_declared.mp (hp.declared hk)
  obtain ⟨R,hR,-⟩ := hw.nested.root
  obtain ⟨v,hx,-⟩ := (regular_of_violations hw hv).inhabited hR
  obtain ⟨a,p',out,hr⟩ := exists_processConstraint hp.wellFormed
    (h.settledAt hw hm hp hirr (hp.vertex hx)) hk (hc (hp.declared hk))
    (h.constraints k (mem_constraints hw hC hkC)) fun n hn => by
      obtain ⟨i,hi⟩ := exists_named_of_violations hw hv (hp.declared hk) hn
      obtain ⟨x,hix,-⟩ := mem_itemNames.mp hi
      exact h.place_eq hw hm hp hirr hv hx hix ▸ hp.names_place hi
  exact hirr p' ⟨_,a,out,hr⟩

/-- What is left is consolidated. -/
theorem consolidated (hv : q.violations = [])
    (hc : ∀ {c k}, k ∈ q.declared c → k.sameRelation k = true) : p.isConsolidated = true := by
  have h₀ := regular_of_violations hw hv
  have hpw := hp.wellFormed
  obtain ⟨R₀,hR₀,-⟩ := hw.nested.root
  obtain ⟨v,hx,-⟩ := h₀.inhabited hR₀
  have honly : ∀ {u}, p.IsVertex u → u = f v := by
    intro u hu
    obtain ⟨w,⟨x,hw₀,-⟩,rfl⟩ := hp.origin hu
    exact h.place_eq hw hm hp hirr hv hx hw₀
  obtain ⟨R,hR,-⟩ := hpw.nested.root
  obtain ⟨y,hy,hys⟩ := h.settledAt hw hm hp hirr (hp.vertex hx)
  have hsub : R.subqueries = [] := by
    refine List.eq_nil_iff_forall_not_mem.mpr fun c hcR => ?_
    obtain ⟨C,hC,-⟩ := hpw.nested.child hR hcR
    have hlt := hpw.nested.below hR hcR
    rw [h.root_of_descends hw hp hC] at hlt
    exact Nat.lt_irrefl _ hlt
  exact consolidated_iff.mpr ⟨R,f v,y,hR,
    vertices_eq hpw hR (hp.vertex hx) (h.owner_of_descends hw hp (hp.vertex hx)) fun hu _ => honly hu,
    edges_eq hpw hR fun he => absurd he (h.not_isEdge hw hm hp hirr h₀),hsub,
    constraints_eq hR fun _ => h.not_declared hw hm hp hirr hv hc,hy,hys⟩

end Irreducible

/-- A plain query can be solved. -/
theorem solvable (hv : q.violations = []) (hm : ∀ {i}, q.itemMarker i = none)
    (hc : ∀ {c k}, k ∈ q.declared c → k.sameRelation k = true) : q.Solvable := by
  obtain ⟨p,f,hlead,hp,hirr⟩ := exists_irreducible (regular_of_violations hw hv) (h.settling hw hc)
  exact ⟨p,hlead,h.consolidated hw hm hp hirr hv hc⟩

end Plain

end Query

end GraphPattern
